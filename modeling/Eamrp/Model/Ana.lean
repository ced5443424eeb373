import Eamrp.Model.Packet

/-!
# The trace evaluation

`eamrptcl/ana.awk`: the fields of a trace record that the script reads, as `cmu-trace.cc` writes
them in the new trace format, its main rule, and what its `END` rule prints. Elements of an array
that were never assigned read as 0, and a division by zero ends the script. Numbers are exact.
-/

namespace Eamrp

/-- A value of the script: a number, or a field or variable whose text is none. -/
inductive AwkValue where
  | num (n : Nat)
  | text (s : List Char)
  deriving DecidableEq, Repr

namespace AwkValue

/-- The value as text. -/
def chars : AwkValue → List Char
  | num n => Nat.toDigits 10 n
  | text s => s

/-- The value as a number: of a text, the digits that it begins with. -/
def value : AwkValue → Nat
  | num n => n
  | text s => (s.takeWhile Char.isDigit).foldl (fun v c => 10 * v + (c.toNat - '0'.toNat)) 0

/-- `>`, which compares texts as soon as one side is no number. -/
def greater : AwkValue → AwkValue → Bool
  | num m, num n => decide (n < m)
  | a, b => decide (b.chars < a.chars)

end AwkValue

/-- `$1`. -/
inductive TraceEvent where
  | s
  | r
  | f
  | d
  | other
  deriving DecidableEq, Repr

/-- `$19`. -/
inductive TraceLevel where
  | agt
  | rtr
  | other
  deriving DecidableEq, Repr

/-- The traffic type with what its `format_` function writes to `$47`: the sequence number of a
CBR packet, the type of an EAMRP packet, and for other traffic a number or nothing. -/
inductive Traffic where
  /-- `-Pn cbr -Pi %d`. -/
  | cbr (seqno : Nat)
  /-- `-P eamrp -Pt 0x%x`. -/
  | eamrp (ahType : Nat)
  | other (pacId : Option Nat)
  deriving DecidableEq, Repr

/-- `$47`. -/
def Traffic.pacId : Traffic → AwkValue
  | cbr seqno => .num seqno
  | eamrp ahType => .text ('0' :: 'x' :: Nat.toDigits 16 ahType)
  | other (some n) => .num n
  | other none => .text []

/-- `$35 == "cbr"`. -/
def Traffic.isCbr : Traffic → Bool
  | cbr _ => true
  | _ => false

/-- One line of a trace: `$1`, `$3`, `$7`, `$19`, and the traffic with `$35` and `$47`. -/
structure Record where
  event : TraceEvent
  tempo : Time
  /-- The next hop, after `-Hd`. -/
  hd : String
  agt : TraceLevel
  traffic : Traffic
  deriving DecidableEq, Repr

/-- The variables of the script. -/
structure Ana where
  maxpacId : AwkValue := .num 0
  sendspkt : Nat := 0
  rountingpkts : Nat := 0
  receivespkt : Nat := 0
  timpIn : AwkValue → Option Time := fun _ => none
  tempoFim : AwkValue → Option Time := fun _ => none

/-- What the script prints, lines 45–51. -/
structure Report where
  packetsSent : Nat
  packetsReceived : Nat
  routingOverhead : Nat
  packetsLoss : Int
  packetDeliveryFraction : Rat
  averageDelay : Time
  deriving DecidableEq, Repr

/-- The line whose division ends the script. -/
inductive AnaFault where
  /-- Line 50, by `sendspkt`. -/
  | packetDeliveryFraction
  /-- Line 51, by `receivespkt`. -/
  | averageDelay
  deriving DecidableEq, Repr

namespace Record

/-- The test of line 19. -/
def isSend (x : Record) : Bool := x.event == .s && x.agt == .agt && x.traffic.isCbr

/-- The test of line 22. -/
def isRouting (x : Record) : Bool :=
  (x.event == .s || x.event == .f) && x.agt == .rtr && x.hd == "EAMRP"

/-- The test of line 25. -/
def isReceive (x : Record) : Bool := x.event == .r && x.agt == .agt && x.traffic.isCbr

/-- `$47`. -/
def pacId (x : Record) : AwkValue := x.traffic.pacId

end Record

namespace Ana

/-- The main rule, lines 10–34. -/
def rule (a : Ana) (x : Record) : Ana where
  sendspkt := if x.isSend then a.sendspkt + 1 else a.sendspkt
  rountingpkts := if x.isRouting then a.rountingpkts + 1 else a.rountingpkts
  receivespkt := if x.isReceive then a.receivespkt + 1 else a.receivespkt
  maxpacId := if x.pacId.greater a.maxpacId then x.pacId else a.maxpacId
  timpIn := if (a.timpIn x.pacId).isSome then a.timpIn
    else Function.update a.timpIn x.pacId (some x.tempo)
  tempoFim := if x.event ≠ .d then
      if x.event = .r then Function.update a.tempoFim x.pacId (some x.tempo) else a.tempoFim
    else Function.update a.tempoFim x.pacId (some 0)

/-- Line 38. -/
def duracao (a : Ana) (pacId : Nat) : Time :=
  (a.tempoFim (.num pacId)).getD 0 - (a.timpIn (.num pacId)).getD 0

/-- The loop of lines 37–43. -/
def sum (a : Ana) : Time :=
  (List.range (a.maxpacId.value + 2)).foldl
    (fun sum pacId => if a.duracao pacId > 0 then sum + a.duracao pacId else sum) 0

/-- The `END` rule, lines 35–55. -/
def finish (a : Ana) : Except AnaFault Report :=
  if a.sendspkt = 0 then .error .packetDeliveryFraction
  else if a.receivespkt = 0 then .error .averageDelay
  else .ok
    { packetsSent := a.sendspkt
      packetsReceived := a.receivespkt
      routingOverhead := a.rountingpkts
      packetsLoss := a.sendspkt - a.receivespkt
      packetDeliveryFraction := a.receivespkt / a.sendspkt * 100
      averageDelay := a.sum / a.receivespkt }

end Ana

/-- `ana.awk` on a trace. -/
def ana (t : List Record) : Except AnaFault Report := (t.foldl Ana.rule {}).finish

end Eamrp
