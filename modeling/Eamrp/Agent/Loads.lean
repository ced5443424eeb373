import Eamrp.Agent.RouteUpdate

/-!
# Loads

What an agent never changes in a packet of another protocol, and what becomes of such a packet
when `forward` is called with it. Handlers that deal with routing packets leave these packets
and the queues alone.
-/

namespace Eamrp

open Lib

/-! ### Loads -/

/-- What no handler changes in a packet of another protocol. -/
structure Load where
  saddr : NsAddr
  daddr : NsAddr
  sport : Int
  dport : Int
  numForwards : Int
  body : Body
  deriving DecidableEq

/-- The load of a packet. -/
def Packet.load (p : Packet) : Load :=
  ⟨p.ih.saddr, p.ih.daddr, p.ih.sport, p.ih.dport, p.ch.numForwards, p.body⟩

/-- The load of a packet of another protocol. -/
def AppPacket.load (p : AppPacket) : Load := p.val.load

/-- The packet that an effect passes on, to `target_` or to `dmux_`. -/
def Effect.passed? : Effect → Option Packet
  | .target p _ => some p
  | .dmux p => some p
  | .drop _ _ => none

/-- The packet that an effect drops. -/
def Effect.dropped? : Effect → Option Packet
  | .drop p _ => some p
  | _ => none

/-- The loads of the packets of other protocols. -/
def appLoads (l : List Packet) : List Load := (l.filter fun p => !p.isEamrp).map Packet.load

/-- The loads of the packets of other protocols that are passed on, in order. -/
def passedLoads (l : List Effect) : List Load := appLoads (l.filterMap Effect.passed?)

/-- The loads of the packets of other protocols that are dropped, in order. -/
def droppedLoads (l : List Effect) : List Load := appLoads (l.filterMap Effect.dropped?)

section Loads

variable {l m : List Effect} {x : Effect}

theorem appLoads_append (l m : List Packet) : appLoads (l ++ m) = appLoads l ++ appLoads m := by
  simp [appLoads]

theorem appLoads_app (p : AppPacket) : appLoads [p.val] = [p.load] := by
  have happ := p.2
  simp [appLoads, happ, AppPacket.load]

theorem passedLoads_append : passedLoads (l ++ m) = passedLoads l ++ passedLoads m := by
  rw [passedLoads, List.filterMap_append, appLoads_append]
  rfl

theorem droppedLoads_append : droppedLoads (l ++ m) = droppedLoads l ++ droppedLoads m := by
  rw [droppedLoads, List.filterMap_append, appLoads_append]
  rfl

/-- The effect is about a routing packet. -/
def Effect.Control : Effect → Prop
  | .target p _ => p.isEamrp = true
  | .drop p _ => p.isEamrp = true
  | .dmux p => p.isEamrp = true

/-- Routing packets carry no load. -/
theorem loads_of_control (h : ∀ x ∈ l, x.Control) : passedLoads l = [] ∧ droppedLoads l = [] := by
  have hmem : ∀ p : Packet, (p ∈ l.filterMap Effect.passed? ∨ p ∈ l.filterMap Effect.dropped?) →
      p.isEamrp = true := by
    rintro p (hp | hp) <;> obtain ⟨x, hx, hxp⟩ := List.mem_filterMap.mp hp <;>
      have hcontrol := h x hx <;> cases x <;> cases hxp <;> exact hcontrol
  have hnone : ∀ m : List Packet, (∀ p ∈ m, p.isEamrp = true) → appLoads m = [] := by
    intro m hm
    unfold appLoads
    rw [List.filter_eq_nil_iff.mpr fun p hp => by simp [hm p hp]]
    rfl
  exact ⟨hnone _ fun p hp => hmem p (.inl hp), hnone _ fun p hp => hmem p (.inr hp)⟩

end Loads

/-- What becomes of a packet: `forward` has been called with it, or it has been dropped. A
unicast packet is handed to `target_` at once. -/
structure Effect.Fate (p : Packet) (x : Effect) : Prop where
  isEamrp : ∀ q, x.passed? = some q ∨ x.dropped? = some q → q.isEamrp = p.isEamrp
  load : ∀ q, x.passed? = some q ∨ x.dropped? = some q → q.load = p.load
  atOnce : ∀ q delay, x = .target q delay → p.ih.daddr ≠ ipBroadcast → delay = 0

theorem Effect.Fate.drop {p q : Packet} (hb : q.isEamrp = p.isEamrp) (hl : q.load = p.load)
    (reason : DropReason) : (Effect.drop q reason).Fate p := by
  refine ⟨fun x hx => ?_, fun x hx => ?_, fun x delay hx => by cases hx⟩ <;>
    rcases hx with hx | hx <;> cases hx
  · exact hb
  · exact hl

/-- The loads of what becomes of a packet of another protocol. -/
theorem Effect.Fate.loads {p : AppPacket} {x : Effect} (h : x.Fate p.val) :
    passedLoads [x] = (if x.passed?.isSome then [p.load] else []) ∧
      droppedLoads [x] = (if x.passed?.isSome then [] else [p.load]) := by
  have happ := p.2
  cases x with
  | target q delay =>
    have he := (h.isEamrp q (.inl rfl)).trans happ
    have hl := h.load q (.inl rfl)
    simp [passedLoads, droppedLoads, appLoads, passed?, dropped?, he, hl, AppPacket.load]
  | drop q reason =>
    have he := (h.isEamrp q (.inr rfl)).trans happ
    have hl := h.load q (.inr rfl)
    simp [passedLoads, droppedLoads, appLoads, passed?, dropped?, he, hl, AppPacket.load]
  | dmux q =>
    have he := (h.isEamrp q (.inl rfl)).trans happ
    have hl := h.load q (.inl rfl)
    simp [passedLoads, droppedLoads, appLoads, passed?, dropped?, he, hl, AppPacket.load]

/-- The handler has done one thing to the outside, and left its queues alone. -/
structure World.Parts (x : Effect) (w w' : World) : Prop where
  index : w'.index = w.index
  rqueue : w'.rqueue = w.rqueue
  ifqueue : w'.ifqueue = w.ifqueue
  out : w'.out = w.out ++ [x]

/-- `forward` passes the packet on, or drops it. -/
theorem forward_fate {env : Env} {rt : Option NsAddr} {p : Packet} {w w' : World}
    (h : forward env rt p noEamrpDelay w = .ok w') : ∃ x : Effect, x.Fate p ∧ w.Parts x w' := by
  unfold forward at h
  split at h
  · obtain rfl := Except.ok.inj h
    exact ⟨_, .drop rfl rfl .ttl, rfl, rfl, rfl, rfl⟩
  · split at h
    · obtain rfl := Except.ok.inj h
      refine ⟨.dmux p, ⟨?_, ?_, fun q delay hx => by cases hx⟩, rfl, rfl, rfl, rfl⟩ <;>
        rintro q (hx | hx) <;> cases hx <;> rfl
    · split at h
      · split at h
        · cases h
        · split at h
          · cases h
          · split at h
            · cases h
            · dsimp only at h
              split at h
              · cases h
              · obtain rfl := Except.ok.inj h
                refine ⟨_, ⟨?_, ?_, ?_⟩, rfl, rfl, rfl, rfl⟩
                · rintro q (hx | hx) <;> cases hx
                  rfl
                · rintro q (hx | hx) <;> cases hx
                  rfl
                · intro q delay hx _
                  obtain ⟨-, rfl⟩ := Effect.target.inj hx
                  exact if_neg (by decide +kernel)
      · split at h
        · cases h
        · next hb =>
          obtain rfl := Except.ok.inj h
          refine ⟨_, ⟨?_, ?_, fun q delay _ hne => absurd hne (not_not.mpr (not_not.mp hb) ·)⟩,
            rfl, rfl, rfl, rfl⟩
          · rintro q (hx | hx) <;> cases hx
            rfl
          · rintro q (hx | hx) <;> cases hx
            rfl

/-! ### Handlers that deal with routing packets only -/

/-- Nothing but routing packets has been sent or dropped, and no queue has changed. -/
structure World.Apart (w w' : World) : Prop where
  index : w'.index = w.index
  rqueue : w'.rqueue = w.rqueue
  ifqueue : w'.ifqueue = w.ifqueue
  out : ∃ l, w'.out = w.out ++ l ∧ ∀ x ∈ l, x.Control

namespace World.Apart

variable {w w' w'' : World}

theorem of_eq (hi : w'.index = w.index) (hq : w'.rqueue = w.rqueue)
    (hf : w'.ifqueue = w.ifqueue) (ho : w'.out = w.out) : w.Apart w' :=
  ⟨hi, hq, hf, [], by rw [ho, List.append_nil], fun _ hx => absurd hx List.not_mem_nil⟩

theorem refl (w : World) : w.Apart w := of_eq rfl rfl rfl rfl

theorem trans (h : w.Apart w') (h' : w'.Apart w'') : w.Apart w'' where
  index := h'.index.trans h.index
  rqueue := h'.rqueue.trans h.rqueue
  ifqueue := h'.ifqueue.trans h.ifqueue
  out := by
    obtain ⟨l, hl, hx⟩ := h.out
    obtain ⟨l', hl', hx'⟩ := h'.out
    refine ⟨l ++ l', by rw [hl', hl, List.append_assoc], fun x hmem => ?_⟩
    rcases List.mem_append.mp hmem with hmem | hmem
    · exact hx x hmem
    · exact hx' x hmem

theorem emit {x : Effect} (hx : x.Control) (w : World) : w.Apart (w.emit x) := by
  refine ⟨rfl, rfl, rfl, [x], rfl, fun y hy => ?_⟩
  obtain rfl := List.mem_singleton.mp hy
  exact hx

theorem send {p : Packet} (hp : p.isEamrp = true) (w : World) (delay : Time) :
    w.Apart (w.send p delay) := emit (x := .target p delay) hp w

theorem store (w : World) (e : RtEntry) : w.Apart (w.store e) := of_eq rfl rfl rfl rfl

theorem rtEnsure {env : Env} {d : NsAddr} (h : w.rtEnsure env d = .ok w') : w.Apart w' := by
  rw [(World.rtEnsure_ok h).2.1]
  exact of_eq rfl rfl rfl rfl

end World.Apart

section Apart

variable {env : Env} {w w' : World} {p : Packet}

theorem Forwarded.apart {rt : Option NsAddr} (h : Forwarded env p w rt w')
    (hp : p.isEamrp = true) : w.Apart w' := by
  cases h with
  | expired => exact .emit (x := .drop p .ttl) hp w
  | dmux => exact .emit (x := .dmux p) hp w
  | @unicast _ _ path =>
    exact (World.Apart.store w _).trans (.send (p := p.over path.nexthop) hp _ _)
  | broadcast => exact .send (p := p.toAll) hp w _

theorem apart_answerAsDestination (ih : HdrIp) (rq : HdrRequest) (w : World) :
    w.Apart (answerAsDestination ih rq w) := by
  have hraise : w.Apart (w.raiseSeqno rq) := by
    rw [World.raiseSeqno_eq]
    exact .of_eq rfl rfl rfl rfl
  exact hraise.trans (.send rfl _ _)

theorem apart_answerFromRoute {ih : HdrIp} {rq : HdrRequest} {reversePath : Bool} {e : RtEntry}
    (h : answerFromRoute env ih rq reversePath e w = .ok w') : w.Apart w' := by
  unfold answerFromRoute at h
  split at h
  · cases h
  · split at h
    · exact Except.ok.inj h ▸ .refl w
    · split at h
      · cases h
      · split at h
        · dsimp only at h
          split at h
          · cases h
          · obtain rfl := Except.ok.inj h
            have hst : w.Apart ((w.idCount rq.rqSrc rq.rqBcastId).store
                { e.advertise env.inf with rtError := true }) := .of_eq rfl rfl rfl rfl
            exact hst.trans (.send rfl _ _)
        · exact Except.ok.inj h ▸ .refl w

theorem apart_rebroadcast {rq : HdrRequest} {rt : Option RtEntry}
    (h : rebroadcast env p rq rt w = .ok w') : w.Apart w' := by
  unfold rebroadcast at h
  split at h
  · cases h
  · dsimp only at h
    split at h
    · cases h
    · exact (World.Apart.store w _).trans ((forward_ok h).apart rfl)

theorem apart_answerRequest {rq : HdrRequest} {kill reversePath : Bool}
    (h : answerRequest env p rq kill reversePath w = .ok w') : w.Apart w' := by
  unfold answerRequest at h
  dsimp only at h
  split at h
  · exact Except.ok.inj h ▸ apart_answerAsDestination _ _ w
  · split at h
    · exact apart_answerFromRoute h
    · split at h
      · exact Except.ok.inj h ▸ .refl w
      · exact apart_rebroadcast h

theorem apart_forwardReply {rp : HdrReply} (h : forwardReply env p rp w = .ok w') : w.Apart w' := by
  unfold forwardReply at h
  split at h
  · exact Except.ok.inj h ▸ .refl w
  · split at h
    · split at h
      · exact Except.ok.inj h ▸ .refl w
      · dsimp only at h
        split at h
        · split at h
          · cases h
          · split at h
            · cases h
            · split at h
              · cases h
              · have hfwd := (forward_ok h).apart rfl
                refine World.Apart.trans ?_ hfwd
                exact .of_eq rfl rfl rfl rfl
        · cases h
    · exact Except.ok.inj h ▸ .refl w

theorem apart_errorEntry {x : NsAddr} {u : NsAddr × UInt32} {s s' : World × HdrError}
    (h : errorEntry env x s u = .ok s') : s.1.Apart s'.1 := by
  unfold errorEntry at h
  split at h
  · exact Except.ok.inj h ▸ .refl s.1
  · split at h
    · split at h
      · cases h
      · obtain ⟨b, -, h⟩ := of_bind_ok h
        split at h
        · dsimp only at h
          split at h <;> obtain ⟨re, -, h⟩ := of_bind_ok h <;> obtain rfl := Except.ok.inj h <;>
            exact .store _ _
        · exact Except.ok.inj h ▸ .store _ _
    · exact Except.ok.inj h ▸ .refl s.1

theorem apart_recvError {re : HdrError} (h : recvError env p re w = .ok w') : w.Apart w' := by
  unfold recvError at h
  obtain ⟨⟨v, nre⟩, hv, h⟩ := of_bind_ok h
  have hloop : w.Apart v :=
    foldlM_ok (J := fun s : World × HdrError => w.Apart s.1)
      (fun _ _ _ _ hx hs => hx.trans (apart_errorEntry hs)) (.refl w) hv
  obtain rfl := Except.ok.inj h
  split
  · exact hloop.trans (.send rfl _ _)
  · exact hloop

theorem apart_linkFailureEntry {id dst : NsAddr} {s s' : World × HdrError}
    (h : linkFailureEntry env id s dst = .ok s') : s.1.Apart s'.1 := by
  unfold linkFailureEntry at h
  split at h
  · exact Except.ok.inj h ▸ .refl s.1
  · split at h
    · split at h
      · cases h
      · obtain ⟨b, -, h⟩ := of_bind_ok h
        split at h
        · dsimp only at h
          split at h <;> obtain ⟨re, -, h⟩ := of_bind_ok h <;> obtain rfl := Except.ok.inj h <;>
            exact .store _ _
        · exact Except.ok.inj h ▸ .store _ _
    · exact Except.ok.inj h ▸ .refl s.1

theorem apart_handleLinkFailure {id : NsAddr} (h : handleLinkFailure env id w = .ok w') :
    w.Apart w' := by
  unfold handleLinkFailure at h
  obtain ⟨⟨v, re⟩, hv, h⟩ := of_bind_ok h
  have hloop : w.Apart v :=
    foldlM_ok (J := fun s : World × HdrError => w.Apart s.1)
      (fun _ _ _ _ hx hs => hx.trans (apart_linkFailureEntry hs)) (.refl w) hv
  obtain rfl := Except.ok.inj h
  split
  · exact hloop.trans (.send rfl _ _)
  · exact hloop

end Apart

end Eamrp
