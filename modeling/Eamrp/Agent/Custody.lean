import Eamrp.Agent.Loads
import Eamrp.Agent.Output
import Eamrp.Agent.SendBuffer
import Eamrp.Lib.Relay

/-!
# Packets of other protocols in the agent's hands

With the packets of other protocols an agent is a relay: a packet that comes in is passed on,
dropped or put into the send buffer, and one that waits there is passed on, dropped or times
out. The flows are the destinations.
-/

namespace Eamrp

open Lib

/-- A unicast packet of another protocol is not held back on its way to `target_`. -/
def Effect.AtOnce (x : Effect) : Prop :=
  ∀ p delay, x = .target p delay → p.isEamrp = false → p.ih.daddr ≠ ipBroadcast → delay = 0

/-- The loads of the packets that wait. -/
def RQueue.loads (q : RQueue) : List Load := q.map AppPacket.load

/-- The handler has done `acts` to the packets of other protocols; `l` is what it has done to the
outside, and the packets `gone` have timed out. -/
structure World.Relays (env : Env) (w : World) (acts : List (Relay.Act Load)) (l : List Effect)
    (gone : List AppPacket) (w' : World) : Prop where
  index : w'.index = w.index
  out : w'.out = w.out ++ l
  steps : Relay.Steps Load.daddr w.rqueue.loads acts w'.rqueue.loads
  passed : Relay.passed acts = passedLoads l
  dropped : Relay.dropped acts = droppedLoads l
  lost : Relay.lost acts = gone.map AppPacket.load
  atOnce : ∀ x ∈ l, x.AtOnce
  gone : ∀ p ∈ gone, p ∈ w.rqueue ∧ p.val.ch.ts < env.now
  stay : ∀ p ∈ w'.rqueue, p ∈ w.rqueue ∨ p.val.ch.ts = env.now + RQueue.timeout ∧
    p.val.ih.daddr ≠ ipBroadcast ∧ p.load ∈ Relay.taken acts

/-- The handler, with packets of the loads `T` on its hands, has done with them what a relay
does. -/
def World.Carries (env : Env) (T : List Load) (w w' : World) : Prop :=
  ∃ acts l gone, w.Relays env acts l gone w' ∧ Relay.taken acts = T

/-- The loads of packets that `purge` unlinks. -/
theorem RQueue.mem_aged {now : Time} {q : RQueue} {p : AppPacket}
    (hp : p ∈ Fifo.aged RQueue.due now q) : p ∈ q ∧ p.val.ch.ts < now := by
  obtain ⟨hmem, hdue⟩ := List.mem_filter.mp hp
  exact ⟨hmem, of_decide_eq_true hdue⟩

/-- A queue of packets seen as a queue of loads. -/
theorem RQueue.steps_loads {t : List (Relay.Act AppPacket)} {q q' : RQueue}
    (h : Relay.Steps RQueue.daddr q t q') :
    Relay.Steps Load.daddr q.loads (t.map (Relay.Act.map AppPacket.load)) q'.loads :=
  h.map fun _ => rfl

namespace World.Carries

variable {env : Env} {T T' : List Load} {w w' w'' : World} {p : AppPacket} {x : Effect}

theorem of_apart (h : w.Apart w') : w.Carries env [] w' := by
  obtain ⟨l, hl, hcontrol⟩ := h.out
  obtain ⟨hpassed, hdropped⟩ := loads_of_control hcontrol
  refine ⟨[], l, [], ⟨h.index, hl, ?_, hpassed.symm, hdropped.symm, rfl, ?_, ?_, ?_⟩, rfl⟩
  · rw [h.rqueue]
    exact .nil _
  · rintro x hx p delay rfl happ
    cases happ.symm.trans (hcontrol _ hx)
  · exact fun p hp => absurd hp List.not_mem_nil
  · intro p hp
    rw [h.rqueue] at hp
    exact .inl hp

theorem refl (w : World) : w.Carries env [] w := of_apart (.refl w)

theorem trans (h : w.Carries env T w') (h' : w'.Carries env T' w'') :
    w.Carries env (T ++ T') w'' := by
  obtain ⟨acts, l, gone, h, rfl⟩ := h
  obtain ⟨acts', l', gone', h', rfl⟩ := h'
  have happend : ∀ {β : Type} (f : Relay.Act Load → Option β),
      (acts ++ acts').filterMap f = acts.filterMap f ++ acts'.filterMap f :=
    fun f => List.filterMap_append
  refine ⟨acts ++ acts', l ++ l', gone ++ gone', ?_, happend _⟩
  refine ⟨h'.index.trans h.index, ?_, h.steps.append h'.steps, ?_, ?_, ?_, ?_, ?_, ?_⟩
  · rw [h'.out, h.out, List.append_assoc]
  · rw [passedLoads_append, ← h.passed, ← h'.passed]
    exact happend _
  · rw [droppedLoads_append, ← h.dropped, ← h'.dropped]
    exact happend _
  · rw [List.map_append, ← h.lost, ← h'.lost]
    exact happend _
  · intro x hx
    rcases List.mem_append.mp hx with hx | hx
    · exact h.atOnce x hx
    · exact h'.atOnce x hx
  · intro p hp
    rcases List.mem_append.mp hp with hp | hp
    · exact h.gone p hp
    · obtain ⟨hmem, hts⟩ := h'.gone p hp
      refine ⟨(h.stay p hmem).resolve_right fun hnew => ?_, hts⟩
      -- what has just come in has not timed out
      rw [hnew.1] at hts
      exact absurd hts (not_lt.mpr (le_add_of_nonneg_right (by decide +kernel)))
  · intro p hp
    rcases h'.stay p hp with hp | ⟨hts, hd, htaken⟩
    · rcases h.stay p hp with hp | ⟨hts, hd, htaken⟩
      · exact .inl hp
      · refine .inr ⟨hts, hd, ?_⟩
        rw [Relay.taken, happend]
        exact List.mem_append_left _ htaken
    · refine .inr ⟨hts, hd, ?_⟩
      rw [Relay.taken, happend]
      exact List.mem_append_right _ htaken

/-- Only the interface queue differs. -/
theorem ifqueue (h : w.Carries env T w') (q q' : List Packet) :
    World.Carries env T { w with ifqueue := q } { w' with ifqueue := q' } := by
  obtain ⟨acts, l, gone, h, ht⟩ := h
  exact ⟨acts, l, gone, ⟨h.index, h.out, h.steps, h.passed, h.dropped, h.lost, h.atOnce, h.gone,
    h.stay⟩, ht⟩

/-- The load of what becomes of a packet is that of the packet, so it leaves at once. -/
theorem atOnce_of_fate (hx : x.Fate p.val) : x.AtOnce := by
  rintro q delay rfl _ hb
  have hload := hx.load q (.inl rfl)
  have hd : q.ih.daddr = p.val.ih.daddr := congrArg Load.daddr hload
  exact hx.atOnce q delay rfl (hd ▸ hb)

/-- A packet comes in and is passed on or dropped, while none for its destination waits. -/
theorem through (hx : x.Fate p.val) (h : w.Parts x w')
    (hnone : ∀ q ∈ w.rqueue, q.val.ih.daddr ≠ p.val.ih.daddr) : w.Carries env [p.load] w' := by
  obtain ⟨hpassed, hdropped⟩ := hx.loads
  have hother : ∀ y ∈ w.rqueue.loads, y.daddr ≠ p.load.daddr := by
    intro y hy
    obtain ⟨q, hq, rfl⟩ := List.mem_map.mp hy
    exact hnone q hq
  have hstay : ∀ t, ∀ q ∈ w'.rqueue, q ∈ w.rqueue ∨ q.val.ch.ts = env.now + RQueue.timeout ∧
      q.val.ih.daddr ≠ ipBroadcast ∧ q.load ∈ Relay.taken t := by
    intro t q hq
    rw [h.rqueue] at hq
    exact .inl hq
  have hone : ∀ y ∈ [x], y.AtOnce := by
    intro y hy
    obtain rfl := List.mem_singleton.mp hy
    exact atOnce_of_fate hx
  cases hsome : x.passed?.isSome with
  | true =>
    rw [hsome] at hpassed hdropped
    refine ⟨[.through p.load], [x], [], ⟨h.index, h.out, ?_, hpassed.symm, hdropped.symm, rfl,
      hone, fun q hq => absurd hq List.not_mem_nil, hstay _⟩, rfl⟩
    rw [h.rqueue]
    exact .single (.through hother)
  | false =>
    rw [hsome] at hpassed hdropped
    refine ⟨[.refuse p.load], [x], [], ⟨h.index, h.out, ?_, hpassed.symm, hdropped.symm, rfl,
      hone, fun q hq => absurd hq List.not_mem_nil, hstay _⟩, rfl⟩
    rw [h.rqueue]
    exact .single (.refuse _ _)

/-- A packet comes in and is dropped. -/
theorem refuse {q : Packet} (hb : q.isEamrp = p.val.isEamrp) (hl : q.load = p.load)
    (w : World) (reason : DropReason) : w.Carries env [p.load] (w.drop q reason) := by
  obtain ⟨hpassed, hdropped⟩ := (Effect.Fate.drop hb hl reason).loads
  refine ⟨[.refuse p.load], [.drop q reason], [], ⟨rfl, rfl, .single (.refuse _ _),
    hpassed.symm, hdropped.symm, rfl, ?_, fun q hq => absurd hq List.not_mem_nil,
    fun q hq => .inl hq⟩, rfl⟩
  intro y hy
  obtain rfl := List.mem_singleton.mp hy
  intro p delay hx
  cases hx

/-- A packet that waits is taken out of the buffer and passed on or dropped. -/
theorem handOut {d : NsAddr} {q : RQueue} (hq : w.rqueue.deque env.now d = (some p, q))
    (hx : x.Fate p.val) (h : World.Parts x { w with rqueue := q } w') : w.Carries env [] w' := by
  obtain ⟨hpassed, hdropped⟩ := hx.loads
  rw [RQueue.deque_eq] at hq
  obtain ⟨t, ht, htaken, htpassed, htdropped, htlost⟩ :=
    Relay.popKey_steps RQueue.due env.now hq x.passed?.isSome
  have hrest := h.rqueue
  refine ⟨t.map (Relay.Act.map AppPacket.load), [x], Fifo.aged RQueue.due env.now w.rqueue,
    ⟨h.index, h.out, ?_, ?_, ?_, ?_, ?_, fun y hy => RQueue.mem_aged hy, ?_⟩, ?_⟩
  · rw [hrest]
    exact RQueue.steps_loads ht
  · rw [Relay.passed_map, htpassed, hpassed]
    split <;> rfl
  · rw [Relay.dropped_map, htdropped, hdropped]
    split <;> rfl
  · rw [Relay.lost_map, htlost]
  · intro y hy
    obtain rfl := List.mem_singleton.mp hy
    exact atOnce_of_fate hx
  · intro y hy
    rw [hrest] at hy
    have hsub := Fifo.popKey_sublist RQueue.due RQueue.daddr env.now d w.rqueue
    rw [hq] at hsub
    exact .inl (hsub.subset hy)
  · rw [Relay.taken_map, htaken]
    rfl

/-- Packets that have timed out are unlinked. -/
theorem drained {d : NsAddr} {q : RQueue} (hq : w.rqueue.deque env.now d = (none, q)) :
    w.Carries env [] { w with rqueue := q } := by
  obtain ⟨t, ht, htaken, htpassed, htdropped, htlost⟩ :=
    Relay.live_steps RQueue.due env.now RQueue.daddr w.rqueue
  obtain ⟨hnone, herase⟩ := Prod.mk.inj hq
  have hlive : q = Fifo.live RQueue.due env.now w.rqueue := by
    rw [← herase]
    exact List.eraseP_of_forall_not (List.find?_eq_none.mp hnone)
  refine ⟨t.map (Relay.Act.map AppPacket.load), [], Fifo.aged RQueue.due env.now w.rqueue,
    ⟨rfl, (List.append_nil _).symm, ?_, ?_, ?_, ?_, fun x hx => absurd hx List.not_mem_nil,
      fun y hy => RQueue.mem_aged hy, ?_⟩, ?_⟩
  · rw [hlive]
    exact RQueue.steps_loads ht
  · rw [Relay.passed_map, htpassed]
    rfl
  · rw [Relay.dropped_map, htdropped]
    rfl
  · rw [Relay.lost_map, htlost]
  · intro y hy
    have hy : y ∈ q := hy
    rw [hlive] at hy
    exact .inl ((Fifo.live_sublist RQueue.due env.now w.rqueue).subset hy)
  · rw [Relay.taken_map, htaken]
    rfl

/-- A packet enters the send buffer. -/
theorem enque (hd : p.val.ih.daddr ≠ ipBroadcast) (w : World) :
    w.Carries env [p.load] (w.enque env p) := by
  obtain ⟨t, ht, htaken, htpassed, htdropped, htlost⟩ :=
    Relay.push_steps RQueue.due env.now RQueue.daddr RQueue.limit
      (p.withCmn { p.val.ch with ts := env.now + RQueue.timeout }) w.rqueue
  have heq := RQueue.enque_eq env.now p w.rqueue
  refine ⟨t.map (Relay.Act.map AppPacket.load), _, Fifo.aged RQueue.due env.now w.rqueue,
    ⟨rfl, rfl, ?_, ?_, ?_, ?_, ?_, fun y hy => RQueue.mem_aged hy, ?_⟩, ?_⟩
  · have hq : (w.enque env p).rqueue = (Fifo.push RQueue.due RQueue.limit env.now
        (p.withCmn { p.val.ch with ts := env.now + RQueue.timeout }) w.rqueue).1 :=
      congrArg Prod.fst heq
    rw [hq]
    exact RQueue.steps_loads ht
  · rw [Relay.passed_map, htpassed, heq]
    cases (Fifo.push RQueue.due RQueue.limit env.now
      (p.withCmn { p.val.ch with ts := env.now + RQueue.timeout }) w.rqueue).2 <;> rfl
  · rw [Relay.dropped_map, htdropped, heq]
    cases hpush : (Fifo.push RQueue.due RQueue.limit env.now
      (p.withCmn { p.val.ch with ts := env.now + RQueue.timeout }) w.rqueue).2 with
    | none => rfl
    | some y =>
      have happ := y.2
      simp [droppedLoads, appLoads, Effect.dropped?, RQueue.dropped, happ, AppPacket.load]
  · rw [Relay.lost_map, htlost]
  · intro y hy q delay hx
    obtain ⟨d, -, rfl⟩ := List.mem_map.mp hy
    cases hx
  · intro y hy
    rcases mem_enque hy with hy | rfl
    · exact .inl hy
    · refine .inr ⟨rfl, hd, ?_⟩
      rw [Relay.taken_map, htaken]
      exact List.mem_singleton_self _
  · rw [Relay.taken_map, htaken]
    rfl

end World.Carries

/-! ### Handlers -/

/-- No broadcast packet waits. -/
def Agent.Unicasts (a : Agent) : Prop := ∀ p ∈ a.rqueue, p.val.ih.daddr ≠ ipBroadcast

section Handlers

variable {env : Env} {w w' : World} {p : Packet} {d : NsAddr}

/-- A loop that passes on or drops every packet it takes out of the buffer. -/
theorem carries_whileDeque {β : Type} {body : AppPacket → World × β → Except Fault (World × β)}
    {I : World → Prop} (hkeep : ∀ w q, I w → I { w with rqueue := q })
    (hbody : ∀ p w b s', I w → body p (w, b) = .ok s' →
      I s'.1 ∧ ∃ x : Effect, x.Fate p.val ∧ w.Parts x s'.1)
    {n : Nat} {s s' : World × β} (hs : I s.1)
    (h : World.whileDeque env d body n s = .ok s') : s.1.Carries env [] s'.1 := by
  induction n generalizing s with
  | zero => exact Except.ok.inj h ▸ .refl s.1
  | succ n ih =>
    obtain ⟨w, b⟩ := s
    unfold World.whileDeque at h
    cases hq : w.rqueue.deque env.now d with
    | mk first q =>
      have hw : w.deque env d = (first, { w with rqueue := q }) := by
        simp only [World.deque, hq]
      rw [hw] at h
      cases first with
      | none => exact Except.ok.inj h ▸ World.Carries.drained hq
      | some p =>
        obtain ⟨s₁, h₁, h⟩ := of_bind_ok h
        obtain ⟨hI, x, hx, hparts⟩ := hbody p _ b s₁ (hkeep w q hs) h₁
        exact (World.Carries.handOut hq hx hparts).trans (ih hI h)

theorem carries_dropBuffered {reason : DropReason} (h : dropBuffered env d reason w = .ok w') :
    w.Carries env [] w' := by
  unfold dropBuffered at h
  obtain ⟨⟨v, u⟩, hv, h⟩ := of_bind_ok h
  obtain rfl := Except.ok.inj h
  refine carries_whileDeque (I := fun _ => True) (fun _ _ _ => trivial) ?_ trivial hv
  intro p x b s' _ hb
  obtain rfl := Except.ok.inj hb
  exact ⟨trivial, _, .drop rfl rfl reason, rfl, rfl, rfl, rfl⟩

theorem carries_sendRequest (h : sendRequest env d w = .ok w') : w.Carries env [] w' := by
  cases sendRequest_asked h with
  | up => exact .refl w
  | early => exact .refl w
  | @hold e _ _ _ _ _ h =>
    exact (World.Carries.of_apart (.store w _)).trans (carries_dropBuffered h)
  | @send e =>
    have hset : w.Apart ({ w.store (e.requested env.now) with bid := w.bid + 1 }.setSeqno
        (w.seqno.toNat + 2)) := .of_eq rfl rfl rfl rfl
    exact .of_apart (hset.trans (.send rfl _ _))

/-- The route to `d` is up. -/
def World.Up (w : World) (d : NsAddr) : Prop := ∃ e, w.rtLookup d = some e ∧ e.rtFlags = .up

/-- The flush of the buffer passes packets on. -/
theorem carries_routeUp (h : routeUp env d w = .ok w') : w.Carries env [] w' := by
  unfold routeUp at h
  split at h
  · cases h
  · next e hd =>
    split at h
    · next hup =>
      obtain ⟨⟨v, u⟩, hv, h⟩ := of_bind_ok h
      obtain rfl := Except.ok.inj h
      have hst : (w.store e.resetSoftState).Up d :=
        ⟨_, World.rtLookup_store_self hd (w.rtDst_of_rtLookup hd :), hup⟩
      refine (World.Carries.of_apart (.store w e.resetSoftState)).trans
        (carries_whileDeque (I := fun w => w.Up d) (fun _ _ hs => hs) ?_ hst hv)
      rintro p v b s' ⟨f, hf, hfup⟩ hb
      simp only [hf, hfup, if_true] at hb
      obtain ⟨y, hy, hb⟩ := of_bind_ok hb
      obtain rfl := Except.ok.inj hb
      obtain ⟨f', hf', hcalm⟩ := (forward_ok hy).calm.entry d f hf
      exact ⟨⟨f', hf', hcalm.rtFlags.trans hfup⟩, forward_fate hy⟩
    · exact Except.ok.inj h ▸ .refl w

theorem carries_recvRequest {rq : HdrRequest} (h : recvRequest env p rq w = .ok w') :
    w.Carries env [] w' := by
  by_cases hne : rq.rqSrc = w.index
  · unfold recvRequest at h
    rw [if_pos hne] at h
    exact Except.ok.inj h ▸ .refl w
  · obtain ⟨v, e, e', verdict, hv, -, -, hrest⟩ := recvRequest_stages h hne
    have hmem : w.Apart (w.remember env rq) := by
      rw [World.remember_eq]
      exact .of_eq rfl rfl rfl rfl
    have hst : w.Carries env [] (v.store e') :=
      .of_apart ((hmem.trans (.rtEnsure hv)).trans (.store v e'))
    rcases hrest with ⟨-, rfl⟩ | ⟨b, u, -, hup, hans⟩
    · exact hst
    · exact (hst.trans (carries_routeUp hup)).trans (.of_apart (apart_answerRequest hans))

theorem carries_recvReply {rp : HdrReply} (h : recvReply env p rp w = .ok w') :
    w.Carries env [] w' := by
  by_cases hne : rp.rpDst = w.index
  · unfold recvReply at h
    rw [if_pos hne] at h
    exact Except.ok.inj h ▸ .refl w
  · obtain ⟨v, e, e', verdict, hv, -, -, hrest⟩ := recvReply_stages h hne
    have hst : w.Carries env [] (v.store e') :=
      .of_apart ((World.Apart.rtEnsure hv).trans (.store v e'))
    rcases hrest with ⟨-, rfl⟩ | ⟨b, u, -, hup, hans⟩
    · exact hst
    · exact (hst.trans (carries_routeUp hup)).trans (.of_apart (apart_forwardReply hans))

theorem carries_recvHello {rp : HdrReply} (h : recvHello env p rp w = .ok w') :
    w.Carries env [] w' := by
  unfold recvHello at h
  dsimp only at h
  split at h
  · next hnone =>
    have hnb : w.Apart (w.nbInsert env rp.rpDst) := by
      unfold World.nbInsert
      rw [hnone]
      exact .of_eq rfl rfl rfl rfl
    exact (World.Carries.of_apart hnb).trans (carries_recvReply h)
  · have hnb : w.Apart (w.nbRefresh rp.rpDst
        (env.now + 3 / 2 * allowedHelloLoss * helloInterval)) := .of_eq rfl rfl rfl rfl
    exact (World.Carries.of_apart hnb).trans (carries_recvReply h)

theorem carries_recvEamrp (h : recvEamrp env p w = .ok w') : w.Carries env [] w' := by
  unfold recvEamrp at h
  split at h
  · cases h
  · split at h
    · exact carries_recvRequest h
    · exact carries_recvReply h
    · exact .of_apart (apart_recvError h)
    · exact carries_recvHello h
    · cases h
    · cases h

/-- A packet is dropped, whatever protocol it belongs to. -/
theorem carries_drop (w : World) (p : Packet) (reason : DropReason) :
    w.Carries env (appLoads [p]) (w.drop p reason) := by
  cases happ : p.isEamrp with
  | true =>
    have hnone : appLoads [p] = [] := by simp [appLoads, happ]
    rw [hnone]
    exact .of_apart (.emit (x := .drop p reason) happ w)
  | false =>
    rw [appLoads_app ⟨p, happ⟩]
    exact .refuse (p := ⟨p, happ⟩) rfl rfl w reason

/-- A packet is forwarded over a route that is up, so none for its destination waits. -/
theorem carries_forward {p : AppPacket} (hw : w.Waits) (hup : w.Up p.val.ih.daddr)
    (h : forward env (some p.val.ih.daddr) p.val noEamrpDelay w = .ok w') :
    w.Carries env [p.load] w' := by
  obtain ⟨x, hx, hparts⟩ := forward_fate h
  obtain ⟨e, he, hup⟩ := hup
  exact .through hx hparts (hw.daddr_ne he hup)

/-- A packet from the interface queue is passed on again, or dropped. -/
theorem carries_salvage (hw : w.Waits) (h : salvage env p w = .ok w') :
    w.Carries env (appLoads [p]) w' ∧ w'.ifqueue = w.ifqueue := by
  unfold salvage at h
  split at h
  · exact Except.ok.inj h ▸ ⟨carries_drop w p .hello, rfl⟩
  · next hdata =>
    have happ : p.isEamrp = false := Packet.isEamrp_of_dataPacket (by simpa using hdata)
    split at h
    · exact Except.ok.inj h ▸ ⟨carries_drop w p .hello, rfl⟩
    · next e he =>
      split at h
      · next hup =>
        obtain ⟨x, -, hparts⟩ := forward_fate h
        refine ⟨?_, hparts.ifqueue⟩
        rw [appLoads_app ⟨p, happ⟩]
        exact carries_forward (p := ⟨{ p with ch := { p.ch with
          eamrpSalvageCount := p.ch.eamrpSalvageCount + 1 } }, happ⟩) hw ⟨e, he, hup.1⟩ h
      · exact Except.ok.inj h ▸ ⟨carries_drop w p .hello, rfl⟩

theorem filter_of_find {α : Type} {f : α → Bool} {l : List α} {x : α} (h : l.find? f = some x) :
    l.filter f = x :: (l.eraseP f).filter f ∧
      (l.eraseP f).filter (fun y => !f y) = l.filter fun y => !f y := by
  obtain ⟨hx, u, v, rfl, hu⟩ := List.find?_eq_some_iff_append.mp h
  have hnone : ∀ y ∈ u, ¬ f y = true := fun y hy => by simpa using hu y hy
  rw [List.eraseP_append_right _ hnone, List.eraseP_cons_of_pos hx]
  simp [List.filter_append, List.filter_eq_nil_iff.mpr hnone, hx]

/-- All packets for the lost neighbour leave the interface queue, in order. -/
theorem carries_whileFilter {id : NsAddr} {n : Nat} (hw : w.Waits) (hn : w.ifqueue.length < n)
    (h : whileFilter env id n w = .ok w') :
    w.Carries env (appLoads (w.ifqueue.filter fun p => p.ch.nextHop == id)) w' ∧
      w'.ifqueue = w.ifqueue.filter fun p => !(p.ch.nextHop == id) := by
  induction n generalizing w with
  | zero => exact absurd hn (Nat.not_lt_zero _)
  | succ n ih =>
    unfold whileFilter at h
    split at h
    · next hf =>
      obtain rfl := Except.ok.inj h
      have hno := List.find?_eq_none.mp (Prod.mk.inj hf).1
      rw [List.filter_eq_nil_iff.mpr hno, List.filter_eq_self.mpr fun p hp => by
        simpa using hno p hp]
      exact ⟨.refl w, rfl⟩
    · next p v hf =>
      obtain ⟨hp, rfl⟩ := Prod.mk.inj hf
      obtain ⟨x, hx, h⟩ := of_bind_ok h
      obtain ⟨htake, hkeep⟩ := filter_of_find hp
      have hlull : w.Lull { w with ifqueue := w.ifqueue.eraseP fun p => p.ch.nextHop == id } :=
        .of_eq rfl rfl (List.Sublist.refl _)
      obtain ⟨hcar, hq⟩ := carries_salvage (hlull.waits hw) hx
      have hxw : x.Waits := (World.Lull.of_loss (deeds_salvage hx)).waits (hlull.waits hw)
      have hlen : x.ifqueue.length < n := by
        have hmem : (w.ifqueue.eraseP fun p => p.ch.nextHop == id).length = w.ifqueue.length - 1 :=
          List.length_eraseP_of_mem (List.mem_of_find?_eq_some hp) (List.find?_some hp :)
        have hpos := List.length_pos_of_mem (List.mem_of_find?_eq_some hp)
        have hq : x.ifqueue = w.ifqueue.eraseP fun p => p.ch.nextHop == id := hq
        rw [hq]
        omega
      obtain ⟨hrest, hrest'⟩ := ih hxw hlen h
      rw [hq] at hrest hrest'
      refine ⟨?_, hrest'.trans hkeep⟩
      rw [htake, ← List.singleton_append, appLoads_append]
      exact (hcar.ifqueue w.ifqueue x.ifqueue).trans hrest

theorem carries_nbDelete {id : NsAddr} (hw : w.Waits) (h : nbDelete env id w = .ok w') :
    w.Carries env (appLoads (w.ifqueue.filter fun p => p.ch.nextHop == id)) w' ∧
      w'.ifqueue = w.ifqueue.filter fun p => !(p.ch.nextHop == id) := by
  unfold nbDelete at h
  dsimp only at h
  split at h
  · cases h
  · obtain ⟨v, hv, h⟩ := of_bind_ok h
    have hstart : w.Apart { w.setSeqno (w.seqno.toNat + 2) with
        nbhead := w.nbhead.eraseP fun nb => nb.nbAddr == id } := .of_eq rfl rfl rfl rfl
    have hlull : w.Lull { w.setSeqno (w.seqno.toNat + 2) with
        nbhead := w.nbhead.eraseP fun nb => nb.nbAddr == id } :=
      .of_eq rfl rfl (List.Sublist.refl _)
    have hloss := hstart.trans (apart_handleLinkFailure hv)
    have hvw : v.Waits :=
      (World.Lull.of_loss (deeds_handleLinkFailure hv)).waits (hlull.waits hw)
    have hrest := carries_whileFilter hvw (Nat.lt_succ_self _) h
    rw [hloss.ifqueue] at hrest
    exact ⟨(World.Carries.of_apart hloss).trans hrest.1, hrest.2⟩

/-- The packets that `nb_purge` takes out of the interface queue, for one expired record after
the other. -/
def withdrawnFor (now : Time) (l : List Neighbor) (q : List Packet) : List Packet :=
  (l.filter fun nb => decide (nb.nbExpire ≤ now)).flatMap fun nb =>
    q.filter fun p => p.ch.nextHop == nb.nbAddr

/-- The packets for one neighbour do not depend on those for another. -/
theorem withdrawnFor_filter {now : Time} {l : List Neighbor} {q : List Packet} {id : NsAddr}
    (hl : id ∉ l.map Neighbor.nbAddr) :
    withdrawnFor now l (q.filter fun p => !(p.ch.nextHop == id)) = withdrawnFor now l q := by
  unfold withdrawnFor
  refine List.flatMap_congr fun nb hnb => ?_
  have hne : nb.nbAddr ≠ id := fun heq =>
    hl (List.mem_map.mpr ⟨nb, (List.mem_filter.mp hnb).1, heq⟩)
  rw [List.filter_filter]
  refine List.filter_congr fun p _ => ?_
  by_cases hp : p.ch.nextHop = nb.nbAddr
  · simp [hp, hne]
  · simp [hp]

theorem carries_nbPurge (hw : w.Waits) (hone : w.OneNeighbor) (h : nbPurge env w = .ok w') :
    w.Carries env (appLoads (withdrawnFor env.now w.nbhead w.ifqueue)) w' := by
  have hloop : ∀ (l : List Neighbor) (v : World), v.Waits → (l.map Neighbor.nbAddr).Nodup →
      l.foldlM (fun w nb => if nb.nbExpire ≤ env.now then nbDelete env nb.nbAddr w else .ok w) v =
        .ok w' → v.Carries env (appLoads (withdrawnFor env.now l v.ifqueue)) w' := by
    intro l
    induction l with
    | nil =>
      intro v _ _ h
      obtain rfl := Except.ok.inj h
      exact .refl v
    | cons nb l ih =>
      intro v hv hnd h
      obtain ⟨hnot, hnd⟩ := List.nodup_cons.mp hnd
      rw [List.foldlM_cons] at h
      obtain ⟨u, hu, h⟩ := of_bind_ok h
      split at hu
      · next hexp =>
        obtain ⟨hcar, hq⟩ := carries_nbDelete hv hu
        have hu : u.Waits := (World.Lull.of_loss (deeds_nbDelete hu)).waits hv
        have hrest := ih u hu hnd h
        rw [hq, withdrawnFor_filter hnot] at hrest
        have hsplit : withdrawnFor env.now (nb :: l) v.ifqueue =
            (v.ifqueue.filter fun p => p.ch.nextHop == nb.nbAddr) ++
              withdrawnFor env.now l v.ifqueue := by
          simp [withdrawnFor, hexp]
        rw [hsplit, appLoads_append]
        exact hcar.trans hrest
      · next hexp =>
        obtain rfl := Except.ok.inj hu
        have hskip : withdrawnFor env.now (nb :: l) v.ifqueue =
            withdrawnFor env.now l v.ifqueue := by
          simp [withdrawnFor, hexp]
        rw [hskip]
        exact ih v hv hnd h
  exact hloop w.nbhead w hw hone h

/-- Nothing waits for `d`, so nothing but what has timed out leaves the buffer. -/
theorem carries_drained (hnone : ∀ p ∈ w.rqueue, p.val.ih.daddr ≠ d) :
    w.Carries env [] { w with rqueue := w.rqueue.drained env.now d } := by
  rcases w.rqueue.deque_cases env.now d with ⟨p, q, -, hdeq⟩ | ⟨hq, -⟩
  · exact absurd hdeq.daddr (hnone p hdeq.mem)
  · exact .drained hq

theorem carries_rtPurgeEntry {s s' : World × Time} (hw : s.1.Waits)
    (h : rtPurgeEntry env s d = .ok s') : s.1.Carries env [] s'.1 := by
  unfold rtPurgeEntry at h
  split at h
  · exact Except.ok.inj h ▸ .refl s.1
  · next e he =>
    split at h
    · obtain ⟨b, -, h⟩ := of_bind_ok h
      split at h
      · obtain ⟨v, hv, h⟩ := of_bind_ok h
        obtain rfl := Except.ok.inj h
        exact (carries_dropBuffered hv).trans (.of_apart (.store v _))
      · obtain rfl := Except.ok.inj h
        exact .of_apart (.store s.1 _)
    · split at h
      · next hup =>
        split at h
        · cases h
        · obtain ⟨w, delay⟩ := s
          have hnone := hw.daddr_ne he hup
          rw [whileDeque_none hnone] at h
          obtain rfl := Except.ok.inj h
          exact carries_drained hnone
      · split at h
        · obtain ⟨v, hv, h⟩ := of_bind_ok h
          obtain rfl := Except.ok.inj h
          exact carries_sendRequest hv
        · exact Except.ok.inj h ▸ .refl s.1

theorem carries_rtPurge (hw : w.Waits) (h : rtPurge env w = .ok w') : w.Carries env [] w' := by
  unfold rtPurge at h
  obtain ⟨⟨v, delay⟩, hv, h⟩ := of_bind_ok h
  obtain rfl := Except.ok.inj h
  refine (foldlM_ok (J := fun s : World × Time => s.1.Waits ∧ w.Carries env [] s.1) ?_
    ⟨hw, .refl w⟩ hv).2
  rintro s d - s' ⟨hw, hs⟩ hd
  exact ⟨(lull_rtPurgeEntry hw hd).1.waits hw, hs.trans (carries_rtPurgeEntry hw hd)⟩

/-- `rt_resolve` passes the packet on, buffers it or drops it. -/
theorem carries_rtResolve {p : AppPacket} (hw : w.Waits) (hb : p.val.ih.daddr ≠ ipBroadcast)
    (hrepair : ∀ d e, w.rtLookup d = some e → e.rtFlags ≠ .inRepair)
    (h : rtResolve env p w = .ok w') : w.Carries env [p.load] w' := by
  unfold rtResolve at h
  obtain ⟨v, hv, h⟩ := of_bind_ok h
  have hadd : w.Carries env [] v := .of_apart (.rtEnsure hv)
  have hvw := (lull_rtEnsure hv).waits hw
  split at h
  · cases h
  · next e he =>
    have hnot : e.rtFlags ≠ .inRepair := World.rtEnsure_not_inRepair hrepair hv he
    split at h
    · next hup =>
      split at h
      · cases h
      · exact hadd.trans (carries_forward hvw ⟨e, he, hup⟩ h)
    · split at h
      · exact (hadd.trans (.enque hb v)).trans (carries_sendRequest h)
      · split at h
        · cases h
        · obtain ⟨re, -, h⟩ := of_bind_ok h
          obtain rfl := Except.ok.inj h
          have herr : w.Carries env [] (sendError env re false v) :=
            hadd.trans (.of_apart (.send rfl _ _))
          exact herr.trans (.refuse rfl rfl _ .noRoute)

/-- A packet of another protocol is passed on, buffered or dropped. -/
theorem carries_recvApp {p : AppPacket} (hw : w.Waits) (hu : w.Unicasts)
    (hrepair : ∀ d e, w.rtLookup d = some e → e.rtFlags ≠ .inRepair)
    (h : recvApp env p w = .ok w') : w.Carries env [p.load] w' := by
  have hroute : ∀ q : AppPacket, q.load = p.load →
      (if q.val.ih.daddr ≠ ipBroadcast then rtResolve env q w
        else forward env none q.val noEamrpDelay w) = .ok w' → w.Carries env [p.load] w' := by
    intro q hq h
    rw [← hq]
    split at h
    · next hb => exact carries_rtResolve hw hb hrepair h
    · next hb =>
      obtain ⟨x, hx, hparts⟩ := forward_fate h
      refine .through hx hparts fun y hy heq => hu y hy ?_
      rw [heq]
      exact not_not.mp hb
  unfold recvApp at h
  dsimp only at h
  split at h
  · refine hroute _ ?_ h
    split <;> rfl
  · split at h
    · obtain rfl := Except.ok.inj h
      exact .refuse rfl rfl w .routeLoop
    · split at h
      · obtain rfl := Except.ok.inj h
        exact .refuse rfl rfl w .ttl
      · exact hroute (p.withIp { p.val.ih with ttl := p.val.ih.ttl - 1 }) rfl h

end Handlers

/-! ### Events -/

namespace Agent

/-- The packets that an input gives into the agent's hands: the one that is handed to it, or
those that `nb_purge` takes back from the interface queue. -/
def takes (a : Agent) (env : Env) : Input → List Packet
  | .recv p => [p]
  | .rtLlFailed p => [p]
  | .neighborTimer => withdrawnFor env.now a.nbhead a.ifqueue
  | _ => []

/-- With the packets of other protocols that an event gives into its hands, an agent does what
a relay does. -/
theorem handle_carries {a : Agent} {env : Env} {inp : Input} {w' : World}
    (h : handle env inp a.world = .ok w') (hw : a.Waits) (hu : a.Unicasts) (hone : a.OneNeighbor)
    (hpl : a.PathLists) : a.world.Carries env (appLoads (a.takes env inp)) w' := by
  cases inp with
  | recv q =>
    change recv env q a.world = .ok w' at h
    unfold recv at h
    split at h
    · next happ =>
      have hnot : ∀ d e, a.world.rtLookup d = some e → e.rtFlags ≠ .inRepair := by
        intro d e he hc
        rcases (hpl.lookup he).flags with hf | hf <;> cases hc.symm.trans hf
      have hload : appLoads (a.takes env (.recv q)) = [AppPacket.load ⟨q, happ⟩] :=
        appLoads_app ⟨q, happ⟩
      rw [hload]
      exact carries_recvApp (w := a.world) hw hu hnot h
    · next hE =>
      have hload : appLoads (a.takes env (.recv q)) = [] := by
        have hE : q.isEamrp = true := by simpa using hE
        simp [takes, appLoads, hE]
      rw [hload]
      exact carries_recvEamrp h
  | rtLlFailed q =>
    obtain rfl := Except.ok.inj h
    exact carries_drop a.world q .macCallback
  | broadcastTimer =>
    obtain rfl := Except.ok.inj h
    exact .of_apart (.of_eq rfl rfl rfl rfl)
  | helloTimer =>
    obtain rfl := Except.ok.inj h
    split
    · exact .of_apart (.send rfl a.world 0)
    · exact .refl a.world
  | neighborTimer => exact carries_nbPurge (w := a.world) hw hone h
  | routeCacheTimer => exact carries_rtPurge (w := a.world) hw h
  | ifqueue q =>
    obtain rfl := Except.ok.inj h
    exact (World.Carries.refl a.world).ifqueue a.ifqueue q

/-- The loads of the packets that came into the agent's hands in the course of some moves. -/
def takenIn (t : List (Move World Turn)) : List Load :=
  t.flatMap fun m => appLoads (m.src.toAgent.takes m.label.env m.label.input)

/-- The loads of the packets that were passed on. -/
def passedIn (t : List (Move World Turn)) : List Load := t.flatMap fun m => passedLoads m.tgt.out

/-- The loads of the packets that were given to `drop`. -/
def droppedIn (t : List (Move World Turn)) : List Load := t.flatMap fun m => droppedLoads m.tgt.out

/-- The packet came in and was stamped by one of these moves. -/
def Stamped (t : List (Move World Turn)) (p : AppPacket) : Prop :=
  ∃ m ∈ t, p.load ∈ appLoads (m.src.toAgent.takes m.label.env m.label.input) ∧
    p.val.ch.ts = m.label.env.now + RQueue.timeout

/-- The packet was in the buffer when a move found its time over. -/
def TimedOut (t : List (Move World Turn)) (p : AppPacket) : Prop :=
  Stamped t p ∧ ∃ m ∈ t, p ∈ m.src.rqueue ∧ p.val.ch.ts < m.label.env.now

section Runs

variable {t t' : List (Move World Turn)} {w w' : World} {τ : Turn} {p : AppPacket}

theorem Stamped.append (h : Stamped t p) (t' : List (Move World Turn)) : Stamped (t ++ t') p := by
  obtain ⟨m, hm, h⟩ := h
  exact ⟨m, List.mem_append_left _ hm, h⟩

theorem TimedOut.append (h : TimedOut t p) (t' : List (Move World Turn)) :
    TimedOut (t ++ t') p := by
  obtain ⟨hs, m, hm, h⟩ := h
  exact ⟨hs.append t', m, List.mem_append_left _ hm, h⟩

/-- An agent is a relay for the packets of other protocols: a run of the agent is a run of the
relay, and what disappears there has timed out. -/
theorem Run.relays (h : Run t w) : ∃ (acts : List (Relay.Act Load)) (gone : List AppPacket),
    Relay.Steps Load.daddr [] acts w.rqueue.loads ∧
    Relay.taken acts = takenIn t ∧ Relay.passed acts = passedIn t ∧
    Relay.dropped acts = droppedIn t ∧ Relay.lost acts = gone.map AppPacket.load ∧
    (∀ p ∈ gone, TimedOut t p) ∧ (∀ p ∈ w.rqueue, Stamped t p) ∧ w.Unicasts ∧
    ∀ m ∈ t, ∀ x ∈ m.tgt.out, x.AtOnce := by
  induction h with
  | @start w h =>
    have hq : w.rqueue = [] := by
      rw [h.initial]
    refine ⟨[], [], ?_, rfl, rfl, rfl, rfl, fun p hp => absurd hp List.not_mem_nil, ?_, ?_,
      fun m hm => absurd hm List.not_mem_nil⟩
    · rw [hq]
      exact .nil _
    · rw [hq]
      exact fun p hp => absurd hp List.not_mem_nil
    · unfold Unicasts
      rw [hq]
      exact fun p hp => absurd hp List.not_mem_nil
  | @move t w w' τ hrun hs ih =>
    obtain ⟨acts, gone, hsteps, htaken, hpassed, hdropped, hlost, hgone, hstamped, huni, honce⟩ := ih
    have hreach : w.toAgent.Reachable := ⟨w, ⟨t, hrun⟩, rfl⟩
    obtain ⟨acts', l, gone', hr, htaken'⟩ :=
      handle_carries hs hreach.waits huni hreach.ranged.2 hreach.pathLists
    have hl : w'.out = l := hr.out
    have happend : ∀ {β : Type} (f : Relay.Act Load → Option β),
        (acts ++ acts').filterMap f = acts.filterMap f ++ acts'.filterMap f :=
      fun f => List.filterMap_append
    have hnew : ∀ p : AppPacket, p.load ∈ Relay.taken acts' →
        p.val.ch.ts = τ.env.now + RQueue.timeout → Stamped (t ++ [⟨w, τ, w'⟩]) p := by
      intro p hp hts
      rw [htaken'] at hp
      exact ⟨_, List.mem_append_right _ (List.mem_singleton_self _), hp, hts⟩
    refine ⟨acts ++ acts', gone ++ gone', hsteps.append hr.steps, ?_, ?_, ?_, ?_, ?_, ?_, ?_, ?_⟩
    · rw [Relay.taken, happend, takenIn, List.flatMap_append, List.flatMap_singleton]
      exact congrArg₂ _ htaken htaken'
    · rw [Relay.passed, happend, passedIn, List.flatMap_append, List.flatMap_singleton, hl]
      exact congrArg₂ _ hpassed hr.passed
    · rw [Relay.dropped, happend, droppedIn, List.flatMap_append, List.flatMap_singleton, hl]
      exact congrArg₂ _ hdropped hr.dropped
    · rw [Relay.lost, happend, List.map_append]
      exact congrArg₂ _ hlost hr.lost
    · intro p hp
      rcases List.mem_append.mp hp with hp | hp
      · exact (hgone p hp).append _
      · obtain ⟨hmem, hts⟩ := hr.gone p hp
        exact ⟨(hstamped p hmem).append _, _,
          List.mem_append_right _ (List.mem_singleton_self _), hmem, hts⟩
    · intro p hp
      rcases hr.stay p hp with hp | ⟨hts, -, htaken⟩
      · exact (hstamped p hp).append _
      · exact hnew p htaken hts
    · intro p hp
      rcases hr.stay p hp with hp | ⟨-, hd, -⟩
      · exact huni p hp
      · exact hd
    · intro m hm
      rcases List.mem_append.mp hm with hm | hm
      · exact honce m hm
      · obtain rfl := List.mem_singleton.mp hm
        rw [hl]
        exact hr.atOnce

/-- Every packet of another protocol that comes into an agent's hands, and every packet that it
takes back from the interface queue, is passed on, given to `drop` or in the send buffer, or it
has disappeared there after 30 seconds; and it is so as often as it came in. -/
theorem packets_accounted (h : Run t w) : ∃ gone : List AppPacket,
    (takenIn t).Perm
      (passedIn t ++ droppedIn t ++ gone.map AppPacket.load ++ w.rqueue.loads) ∧
    (∀ p ∈ gone, TimedOut t p) ∧ ∀ p ∈ w.rqueue, Stamped t p := by
  obtain ⟨acts, gone, hsteps, htaken, hpassed, hdropped, hlost, hgone, hstamped, -, -⟩ := Run.relays h
  have hbalance := hsteps.balance
  rw [List.nil_append, htaken, hpassed, hdropped, hlost] at hbalance
  exact ⟨gone, hbalance, hgone, hstamped⟩

/-- An agent never reorders the packets for one destination: those that have been passed on, and
then those that wait, are in the order in which they came in; and no unicast packet is delayed
on its way to `target_`. -/
theorem flows_in_order (h : Run t w) :
    (∀ d, (Relay.ofFlow Load.daddr d (passedIn t ++ w.rqueue.loads)).Sublist
      (Relay.ofFlow Load.daddr d (takenIn t))) ∧ ∀ m ∈ t, ∀ x ∈ m.tgt.out, x.AtOnce := by
  obtain ⟨acts, gone, hsteps, htaken, hpassed, -, -, -, -, -, honce⟩ := Run.relays h
  refine ⟨fun d => ?_, honce⟩
  have horder := hsteps.order d
  rwa [hpassed, htaken, List.nil_append] at horder

end Runs

/-- Node 1 is handed two packets for node 3 before it hears of a route, and two after. -/
def served : List Turn :=
  let data (port : Int) : Turn := ⟨{ now := 0, inf := .mathH },
    .recv { ih := { saddr := 1, daddr := 3, dport := port }, body := .app true }⟩
  let reply : Packet :=
    { ih := { saddr := 3, daddr := 1, sport := rtPort, dport := rtPort, ttl := 9 }
      body := .rrep { rpHopCount := 0, rpDst := 3, rpDstSeqno := 2, rpSrc := 3, rpLifetime := 10,
                      rpFirstHop := 1 } }
  [data 5, data 6, ⟨{ now := 1, inf := .mathH }, .recv reply⟩, data 7, data 8]

theorem run_served : Run (moves (idle 1) served) (final (idle 1) served) :=
  run_idle (by decide +kernel)

theorem packets_accounted_served : (passedIn (moves (idle 1) served)).length = 4 ∧
    ∃ gone : List AppPacket, (takenIn (moves (idle 1) served)).Perm
      (passedIn (moves (idle 1) served) ++ droppedIn (moves (idle 1) served) ++
        gone.map AppPacket.load ++ (final (idle 1) served).rqueue.loads) ∧
      (∀ p ∈ gone, TimedOut (moves (idle 1) served) p) ∧
      ∀ p ∈ (final (idle 1) served).rqueue, Stamped (moves (idle 1) served) p :=
  ⟨by decide +kernel, packets_accounted run_served⟩

theorem flows_in_order_served :
    (passedIn (moves (idle 1) served)).map Load.dport = [5, 6, 7, 8] ∧
      (Relay.ofFlow Load.daddr 3 (passedIn (moves (idle 1) served) ++
        (final (idle 1) served).rqueue.loads)).Sublist
        (Relay.ofFlow Load.daddr 3 (takenIn (moves (idle 1) served))) :=
  ⟨by decide +kernel, (flows_in_order run_served).1 3⟩

end Agent

end Eamrp
