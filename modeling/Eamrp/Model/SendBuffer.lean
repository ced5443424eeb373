import Eamrp.Model.Agent

/-!
# The send buffer in memory

`class eamrp_rqueue` (`eamrp_rqueue.h:21–61`, `eamrp_rqueue.cc`): a list of packets linked
through their `next_` fields, with a pointer to either end and a count. `QDEBUG` is defined
(line 8), so `verifyQueue` and its asserts are part of the program. Loops over the links take
a bound on their turns and fault with `endless` when it is used up.
-/

namespace Eamrp

/-- `Packet *`; the null pointer is `none` of `Option Ptr`. -/
abbrev Ptr := Nat

/-- What the buffer reads and writes of a packet: `next_` and the headers. -/
structure Cell where
  next : Option Ptr := none
  packet : Packet

/-- Ways in which a call ends the simulation, or does not end. -/
inductive QueueFault where
  /-- A null pointer is dereferenced. -/
  | null
  /-- Line 37: the head of a full queue. -/
  | fullQueue
  /-- Lines 88 and 209: the packet to unlink and the one before it. -/
  | unlinked
  /-- Line 171. -/
  | verifyLen
  /-- Line 172. -/
  | verifyTail
  /-- The turns of a loop are used up. -/
  | endless
  deriving DecidableEq, Repr

/-- The fields of `class eamrp_rqueue` and the packets of the simulation. `limit_` and
`timeout_` keep the values of the constructor. -/
structure EamrpRqueue where
  head : Option Ptr := none
  tail : Option Ptr := none
  len : Int := 0
  mem : Ptr → Cell

/-- What a call hands out. -/
inductive Reply where
  | done
  | packet (p : Option Ptr)
  | found (b : Bool)
  deriving DecidableEq, Repr

/-- What a call hands out and what it gives to `drop`. -/
structure Outcome where
  reply : Reply
  dropped : List (Ptr × DropReason) := []
  deriving DecidableEq

namespace EamrpRqueue

/-- `*p`. -/
def deref : Option Ptr → Except QueueFault Ptr
  | some p => .ok p
  | none => .error .null

/-- `assert`. -/
def assert (b : Bool) (f : QueueFault) : Except QueueFault Unit :=
  if b then .ok () else .error f

/-- `p->next_ = a`. -/
def setNext (q : EamrpRqueue) (p : Ptr) (a : Option Ptr) : EamrpRqueue :=
  { q with mem := Function.update q.mem p { q.mem p with next := a } }

/-- `HDR_CMN(p)->ts_ = t`. -/
def setTs (q : EamrpRqueue) (p : Ptr) (t : Time) : EamrpRqueue :=
  { q with mem := Function.update q.mem p { q.mem p with
      packet := { (q.mem p).packet with ch := { (q.mem p).packet.ch with ts := t } } } }

/-- `remove_head`, lines 131–146. -/
def removeHead (q : EamrpRqueue) : Except QueueFault (Option Ptr × EamrpRqueue) := do
  let p := q.head
  let q ← if q.head = q.tail then pure { q with head := none, tail := none }
    else do
      let h ← deref q.head
      pure { q with head := (q.mem h).next }
  pure (p, if p.isSome then { q with len := q.len - 1 } else q)

/-- The loop of `findPacketWithDst` and `findAgedPacket` from the pointer `p` on: the first
packet that is looked for, and the packet before it. -/
def search (mem : Ptr → Cell) (found : Packet → Bool) :
    Nat → Option Ptr → Option Ptr → Except QueueFault (Option Ptr × Option Ptr)
  | 0, _, _ => .error .endless
  | _ + 1, none, prev => .ok (none, prev)
  | n + 1, some p, prev =>
    if found (mem p).packet then .ok (some p, prev)
    else search mem found n (mem p).next (some p)

/-- `findPacketWithDst`, lines 148–158. -/
def findPacketWithDst (n : Nat) (dst : NsAddr) (q : EamrpRqueue) :
    Except QueueFault (Option Ptr × Option Ptr) :=
  search q.mem (fun p => p.ih.daddr == dst) n q.head none

/-- `findAgedPacket`, lines 191–202; it returns true when it has found a packet. -/
def findAgedPacket (n : Nat) (now : Time) (q : EamrpRqueue) :
    Except QueueFault (Option Ptr × Option Ptr) :=
  search q.mem (fun p => decide (p.ch.ts < now)) n q.head none

/-- The loop of `verifyQueue` from the pointer `p` on. -/
def countFrom (mem : Ptr → Cell) :
    Nat → Option Ptr → Option Ptr → Int → Except QueueFault (Option Ptr × Int)
  | 0, _, _, _ => .error .endless
  | _ + 1, none, prev, cnt => .ok (prev, cnt)
  | n + 1, some p, _, cnt => countFrom mem n (mem p).next (some p) (cnt + 1)

/-- `verifyQueue`, lines 162–174. -/
def verifyQueue (n : Nat) (q : EamrpRqueue) : Except QueueFault Unit := do
  let (prev, cnt) ← countFrom q.mem n q.head none 0
  assert (cnt == q.len) .verifyLen
  assert (prev == q.tail) .verifyTail

/-- Lines 88–103 and 209–224: unlink the packet `p` that a search has found behind `prev`. -/
def unlink (q : EamrpRqueue) (p : Ptr) (prev : Option Ptr) :
    Except QueueFault (Option Ptr × EamrpRqueue) := do
  if !(q.head == some p && prev.isNone) then do
    let r ← deref prev
    assert ((q.mem r).next == some p) .unlinked
  if q.head = some p then q.removeHead
  else if q.tail = some p then do
    let r ← deref prev
    pure (some p, { (q.setNext r none) with tail := prev, len := q.len - 1 })
  else do
    let r ← deref prev
    pure (some p, { (q.setNext r (q.mem p).next) with len := q.len - 1 })

/-- `purge`, lines 204–232, with at most `k` turns of its loop. -/
def purgeLoop (n : Nat) (now : Time) : Nat → EamrpRqueue → Except QueueFault EamrpRqueue
  | 0, _ => .error .endless
  | k + 1, q => do
    let (p, prev) ← q.findAgedPacket n now
    match p with
    | none => pure q
    | some p => do
      let (_, q) ← q.unlink p prev
      q.verifyQueue n
      purgeLoop n now k q

/-- `purge`. -/
def purge (n : Nat) (now : Time) (q : EamrpRqueue) : Except QueueFault EamrpRqueue :=
  purgeLoop n now n q

/-- The earlier `purge`, kept in the comment of lines 177–189, with at most `k` turns of its
loop; it gives what it takes out to `drop`. -/
def headPurgeLoop (now : Time) :
    Nat → EamrpRqueue → Except QueueFault (List (Ptr × DropReason) × EamrpRqueue)
  | 0, _ => .error .endless
  | k + 1, q =>
    match q.head with
    | none => pure ([], q)
    | some p =>
      if (q.mem p).packet.ch.ts < now then do
        let (p, q) ← q.removeHead
        let p ← deref p
        let (dropped, q) ← headPurgeLoop now k q
        pure ((p, .qTimeout) :: dropped, q)
      else pure ([], q)

/-- The earlier `purge`. -/
def headPurge (n : Nat) (now : Time) (q : EamrpRqueue) :
    Except QueueFault (List (Ptr × DropReason) × EamrpRqueue) :=
  headPurgeLoop now n q

/-- Lines 46–53: link `p` behind the tail. -/
def linkTail (q : EamrpRqueue) (p : Ptr) : Except QueueFault EamrpRqueue := do
  let q ← if q.head = none then pure { q with head := some p, tail := some p }
    else do
      let t ← deref q.tail
      pure { (q.setNext t (some p)) with tail := some p }
  pure { q with len := q.len + 1 }

/-- Lines 34–44: make room in a full queue. -/
def makeRoom (now : Time) (q : EamrpRqueue) :
    Except QueueFault (List (Ptr × DropReason) × EamrpRqueue) :=
  if q.len = RQueue.limit then do
    let (p0, q) ← q.removeHead
    match p0 with
    | none => .error .fullQueue
    | some p0 => pure ([(p0, if now < (q.mem p0).packet.ch.ts then .qFull else .qTimeout)], q)
  else pure ([], q)

/-- `enque`, lines 22–57. -/
def enque (n : Nat) (now : Time) (p : Ptr) (q : EamrpRqueue) :
    Except QueueFault (Outcome × EamrpRqueue) := do
  let q ← q.purge n now
  let q := (q.setNext p none).setTs p (now + RQueue.timeout)
  let (dropped, q) ← q.makeRoom now
  let q ← q.linkTail p
  q.verifyQueue n
  pure (⟨.done, dropped⟩, q)

/-- `deque()`, lines 60–75. -/
def deque (n : Nat) (now : Time) (q : EamrpRqueue) :
    Except QueueFault (Outcome × EamrpRqueue) := do
  let q ← q.purge n now
  let (p, q) ← q.removeHead
  q.verifyQueue n
  pure (⟨.packet p, []⟩, q)

/-- `deque(dst)`, lines 78–110. -/
def dequeDst (n : Nat) (now : Time) (dst : NsAddr) (q : EamrpRqueue) :
    Except QueueFault (Outcome × EamrpRqueue) := do
  let q ← q.purge n now
  let (p, prev) ← q.findPacketWithDst n dst
  match p with
  | none => pure (⟨.packet none, []⟩, q)
  | some p => do
    let (p, q) ← q.unlink p prev
    q.verifyQueue n
    pure (⟨.packet p, []⟩, q)

/-- `find`, lines 112–122. -/
def find (n : Nat) (dst : NsAddr) (q : EamrpRqueue) :
    Except QueueFault (Outcome × EamrpRqueue) := do
  let (p, _) ← q.findPacketWithDst n dst
  pure (⟨.found p.isSome, []⟩, q)

end EamrpRqueue

/-- The public calls of a send buffer. -/
inductive Call where
  | enque (p : Ptr)
  | deque
  | dequeDst (dst : NsAddr)
  | find (dst : NsAddr)
  deriving DecidableEq, Repr

/-- A call at a clock value. -/
def EamrpRqueue.call (n : Nat) (now : Time) (q : EamrpRqueue) :
    Call → Except QueueFault (Outcome × EamrpRqueue)
  | .enque p => q.enque n now p
  | .deque => q.deque n now
  | .dequeDst dst => q.dequeDst n now dst
  | .find dst => q.find n dst

end Eamrp
