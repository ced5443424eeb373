import Eamrp.Model.RTable

/-!
# Agent state and elementary operations

The fields of `class EAMRP` (`eamrp.h:229–397`), the send buffer at the level of its list
of packets (`eamrp_rqueue.cc`), the broadcast-id cache (`eamrp.cc:216–265`) and the
neighbour cache (`eamrp.cc:1613–1640`). `World` is an agent together with the effects
of the handler that is running.
-/

namespace Eamrp

/-- What a handler reads from its surroundings: the clock, `Random::uniform()`, the bytes
found at `rt_hops` in the memory of an entry created for an address, and `INFINITY`. -/
structure Env where
  now : Time
  uniform : Rat := 0
  rtHops : NsAddr → UInt16 := fun _ => 0
  inf : Infinity

/-! ### Send buffer -/

/-- The packets of `eamrp_rqueue`, from `head_` to `tail_`. -/
abbrev RQueue := List AppPacket

namespace RQueue

/-- `EAMRP_RTQ_MAX_LEN`; `eamrp_rqueue.h:13`. -/
def limit : Nat := 64

/-- `EAMRP_RTQ_TIMEOUT`; `eamrp_rqueue.h:19`. -/
def timeout : Time := 30

/-- `purge`, lines 204–232: unlink the timed-out packets. They are not given to `drop`. -/
def purge (now : Time) (q : RQueue) : RQueue := q.filter (fun p => !decide (p.val.ch.ts < now))

/-- `enque`, lines 22–57; also returns what is given to `drop`. -/
def enque (now : Time) (p : AppPacket) (q : RQueue) :
    RQueue × List (AppPacket × DropReason) :=
  let q := q.purge now
  let p := p.withCmn { p.val.ch with ts := now + timeout }
  if q.length = limit then
    match q with
    | [] => ([p], [])
    | p0 :: q => (q ++ [p], [(p0, if now < p0.val.ch.ts then .qFull else .qTimeout)])
  else (q ++ [p], [])

/-- `deque(dst)`, lines 79–110. -/
def deque (now : Time) (dst : NsAddr) (q : RQueue) : Option AppPacket × RQueue :=
  let q := q.purge now
  (q.find? (fun p => p.val.ih.daddr == dst), q.eraseP (fun p => p.val.ih.daddr == dst))

/-- `find(dst)`, lines 112–122; it does not purge. -/
def find (dst : NsAddr) (q : RQueue) : Bool := q.any (fun p => p.val.ih.daddr == dst)

end RQueue

/-! ### Agent -/

/-- `EAMRPBroadcastID`; its two path lists serve link-disjoint paths only. -/
structure BroadcastId where
  src : NsAddr
  id : UInt32
  expire : Time
  count : Int := 0
  deriving DecidableEq, Repr

/-- `EAMRP_Neighbor`. -/
structure Neighbor where
  nbAddr : NsAddr
  nbExpire : Time
  deriving DecidableEq, Repr

/-- The state of `class EAMRP`. `ifqueue` is the content of the interface queue that
`EAMRPifqueue` points to. `seqnoWrapped` is ghost: it is set once an assignment to `seqno`
has passed `2^32` and no handler reads it. -/
structure Agent where
  index : NsAddr
  seqno : UInt32 := 2
  bid : Int32 := 1
  rtable : RTable := []
  nbhead : List Neighbor := []
  bihead : List BroadcastId := []
  rqueue : RQueue := []
  eamrpMaxPaths : Int := 3
  eamrpPrimAltPathLenDiff : Int := 1
  ifqueue : List Packet := []
  seqnoWrapped : Bool := false
  deriving DecidableEq

/-- What the agent does to its surroundings. -/
inductive Effect where
  /-- `Scheduler::instance().schedule(target_, p, delay)`. -/
  | target (p : Packet) (delay : Time)
  /-- `drop(p, reason)`. -/
  | drop (p : Packet) (reason : DropReason)
  /-- `dmux_->recv(p, 0)`. -/
  | dmux (p : Packet)
  deriving DecidableEq

/-- An agent and the effects of the running handler, oldest first. -/
structure World extends Agent where
  out : List Effect := []
  deriving DecidableEq

/-- The packet that an effect hands to `target_`. -/
def Effect.sent? : Effect → Option Packet
  | .target p _ => some p
  | .drop _ _ => none
  | .dmux _ => none

namespace World

/-- The packets handed to `target_` so far. -/
def sent (w : World) : List Packet := w.out.filterMap Effect.sent?

/-- Record one effect. -/
def emit (w : World) (e : Effect) : World := { w with out := w.out ++ [e] }

/-- Hand a packet to `target_`. -/
def send (w : World) (p : Packet) (delay : Time) : World := w.emit (.target p delay)

/-- Give a packet to `drop`. -/
def drop (w : World) (p : Packet) (reason : DropReason) : World := w.emit (.drop p reason)

/-- `rtable.rt_lookup`. -/
def rtLookup (w : World) (id : NsAddr) : Option RtEntry := w.rtable.rtLookup id

/-- `rtable.rt_add`. -/
def rtAdd (env : Env) (w : World) (id : NsAddr) : Except Fault World :=
  match w.rtable.rtAdd id (env.rtHops id) with
  | .ok t => .ok { w with rtable := t }
  | .error f => .error f

/-- Look up an entry and create it when it is missing. -/
def rtEnsure (env : Env) (w : World) (id : NsAddr) : Except Fault World :=
  match w.rtLookup id with
  | some _ => .ok w
  | none => w.rtAdd env id

/-- Write through the pointer to an entry. -/
def store (w : World) (e : RtEntry) : World := { w with rtable := w.rtable.store e }

/-- Assign to the node's own `seqno`, an unsigned 32-bit field. -/
def setSeqno (w : World) (n : Nat) : World :=
  { w with seqno := UInt32.ofNat n, seqnoWrapped := w.seqnoWrapped || decide (2 ^ 32 ≤ n) }

/-- `id_get`, lines 240–250. -/
def idGet (w : World) (src : NsAddr) (bid : UInt32) : Option BroadcastId :=
  w.bihead.find? (fun b => b.src == src && b.id == bid)

/-- `id_insert`, lines 216–223. -/
def idInsert (env : Env) (w : World) (src : NsAddr) (bid : UInt32) : World :=
  { w with bihead := ⟨src, bid, env.now + bcastIdSave, 0⟩ :: w.bihead }

/-- `b->count = 1` for the record that `id_get` gave. -/
def idCount (w : World) (src : NsAddr) (bid : UInt32) : World :=
  { w with bihead := w.bihead.map (fun b =>
      if b.src = src ∧ b.id = bid then { b with count := 1 } else b) }

/-- `id_purge`, lines 252–265. -/
def idPurge (env : Env) (w : World) : World :=
  { w with bihead := w.bihead.filter (fun b => !decide (b.expire ≤ env.now)) }

/-- `rqueue.enque`. -/
def enque (env : Env) (w : World) (p : AppPacket) : World :=
  let r := w.rqueue.enque env.now p
  { w with rqueue := r.1, out := w.out ++ r.2.map (fun d => .drop d.1.val d.2) }

/-- `rqueue.deque(dst)`. -/
def deque (env : Env) (w : World) (dst : NsAddr) : Option AppPacket × World :=
  let r := w.rqueue.deque env.now dst
  (r.1, { w with rqueue := r.2 })

/-- `while ((p = rqueue.deque(dst))) body`, with an accumulator. Every turn takes one packet
out of the buffer, so one more turn than it holds packets ends with an empty answer. -/
def whileDeque {β : Type} (env : Env) (dst : NsAddr)
    (body : AppPacket → World × β → Except Fault (World × β)) :
    Nat → World × β → Except Fault (World × β)
  | 0, s => .ok s
  | n + 1, s =>
    match s.1.deque env dst with
    | (none, w) => .ok (w, s.2)
    | (some p, w) => do
      let s ← body p (w, s.2)
      whileDeque env dst body n s

/-- `nb_lookup`, lines 1632–1640. -/
def nbLookup (w : World) (id : NsAddr) : Option Neighbor :=
  w.nbhead.find? (fun nb => nb.nbAddr == id)

/-- Set the expiry of the record that `nb_lookup` gives. -/
def nbRefresh (w : World) (id : NsAddr) (expire : Time) : World :=
  { w with nbhead := w.nbhead.map (fun nb =>
      if nb.nbAddr = id then { nb with nbExpire := expire } else nb) }

/-- `nb_insert`, lines 1613–1629. -/
def nbInsert (env : Env) (w : World) (id : NsAddr) : World :=
  match w.nbLookup id with
  | none => { w with nbhead := ⟨id, env.now + helloInterval * allowedHelloLoss⟩ :: w.nbhead }
  | some _ => w.nbRefresh id (env.now + helloInterval * allowedHelloLoss)

end World

end Eamrp
