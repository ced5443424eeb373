import Eamrp.Agent.Expiry
import Eamrp.Agent.Neighbors
import Eamrp.Agent.Prolong

/-!
# What the timers keep up

While the timers run, an agent sends HELLOs at a steady rate as long as it has a route, and no
path outlives its time by more than the interval of the route cache timer.
-/

namespace Eamrp

open Lib

/-! ### Paths -/

/-- Whatever is heard promises to last until `L` ago at least. -/
def HearsLasting (L : Time) (heard : Input) : Prop := ∀ i A, Hears heard i A → -L ≤ A.life

namespace RtEntry

variable {now t : Time} {e e' : RtEntry} {x y : NsAddr} {n : UInt16}

/-- No path expires before `t`. -/
def Since (t : Time) (e : RtEntry) : Prop := ∀ p ∈ e.rtPathList, t ≤ p.expire

theorem Loss.since (h : e.Loss now e') (ht : t ≤ now + activeRouteTimeout) (he : e.Since t) :
    e'.Since t := by
  intro p' hp'
  obtain ⟨p, hp, rfl | rfl⟩ := h.paths p' hp'
  · exact he p' hp
  · exact ht

theorem since_refreshPath {t' : Time} (he : e.Since t) : (e.refreshPath x y t').Since t := by
  intro p hp
  obtain ⟨q, hq, -, rfl | heq⟩ := mem_raiseExpire hp
  · exact he p hq
  · rw [heq, macroMax]
    have := he q hq
    split <;> grind

theorem since_addPath {t' : Time} (he : e.Since t) (ht : t ≤ t') : (e.addPath x n t' y).Since t := by
  intro p hp
  rcases List.mem_append.mp hp with hp | hp
  · exact he p hp
  · rw [List.mem_singleton.mp hp]
    exact ht

theorem since_renew {t' : Time} {inf : Infinity} {s : UInt32} (ht : t ≤ t') :
    (e.renew inf s x n t' y).Since t := by
  intro p hp
  rw [List.mem_singleton.mp hp]
  exact ht

end RtEntry

section Steps

variable {env : Env} {a : Agent} {heard : Input} {e e' : RtEntry} {w w' : World} {t L : Time}

theorem EntryStep.since (h : EntryStep env a heard e e') (hL : HearsLasting L heard) (h0 : 0 ≤ L)
    (ht : t ≤ env.now - L) (he : e.Since t) : e'.Since t := by
  have hlife : ∀ A, Hears heard a.index A → t ≤ env.now + A.life := fun A hA => by
    linarith [hL _ A hA]
  have huse : t ≤ env.now + activeRouteTimeout := by
    have : (0 : Time) ≤ activeRouteTimeout := by norm_num [activeRouteTimeout]
    linarith
  cases h with
  | soft h =>
    unfold RtEntry.Since
    rw [h.rtPathList]
    exact he
  | touch => exact (RtEntry.Use.touchFirst e).loss.since huse he
  | refresh => exact RtEntry.since_refreshPath he
  | renew hA => exact RtEntry.since_renew (hlife _ hA)
  | add hA => exact RtEntry.since_addPath he (hlife _ hA)
  | freeze => exact he
  | @lose id => exact (RtEntry.Loss.pathDelete id e).since huse he
  | @fail id =>
    have hdel : e.Loss env.now (e.pathDelete id) := .pathDelete id e
    exact ((hdel.setSeqno _ _ _).trans (.rtDown _ _)).since huse he
  | @hear id => exact (RtEntry.Loss.pathDelete id e).since huse he
  | @withdraw id =>
    have hdel : e.Loss env.now (e.pathDelete id) := .pathDelete id e
    exact ((hdel.setSeqno _ _ _).trans (.rtDown _ _)).since huse he
  | purge => exact (RtEntry.Loss.pathPurge env.now e).since huse he
  | expire =>
    have hpurge : e.Loss env.now (e.pathPurge env.now) := .pathPurge env.now e
    exact ((hpurge.setSeqno _ _ _).trans (.rtDown _ _)).since huse he

/-- No path of the agent expires before `t`. -/
def Agent.Since (t : Time) (a : Agent) : Prop := ∀ e ∈ a.rtable, e.Since t

/-- No event brings a path that expires more than `L` ago. -/
theorem handle_since {inp : Input} (h : handle env inp w = .ok w') (hL : HearsLasting L inp)
    (h0 : 0 ≤ L) (ht : t ≤ env.now - L) (hw : w.toAgent.Since t) : w'.toAgent.Since t := by
  have haged : HearsLasting L inp.aged := fun i A hA => hL i A (hears_aged.mp hA)
  have hruns := @handle_runs env inp w
  rw [h] at hruns
  refine preserved_of_steps (I := fun v => v.toAgent.Since t) (fun v v' hv hs => ?_)
    hruns.steps_of_ok hw
  exact hs.forall_entry (Q := RtEntry.Since t) (fun _ _ _ hp => absurd hp List.not_mem_nil)
    (fun _ _ hs he => hs.since haged h0 ht he) hv

end Steps

namespace Timed

variable {s s' : Timed} {env : Env} {ev : Event} {t : List (Move Timed Event)} {k : Timer}
variable {T L : Time}

theorem hearsLasting_timer (k : Timer) : HearsLasting L k.input := by
  rintro i A ⟨q, hq, -⟩
  cases k <;> cases hq

/-- One timer keeps the bound, and that of the route cache raises it. -/
theorem since_handle (hr : s.world.toAgent.Reachable) (h : s.handle env k = .ok s') (h0 : 0 ≤ L)
    (hT : T ≤ env.now - L) (hs : s.world.toAgent.Since T) :
    s'.world.toAgent.Reachable ∧ s'.world.toAgent.Since T ∧
      (k = .rtimer → 0 < env.now → s'.world.toAgent.Since env.now) := by
  obtain ⟨w, hw, heq⟩ := hr
  obtain ⟨w', hs', hw', -⟩ := handle_ok h heq
  have hr : w.toAgent.Reachable := ⟨w, hw, rfl⟩
  rw [← heq] at hs
  rw [← hw']
  refine ⟨⟨w', hw.next hs', rfl⟩, handle_since hs' (hearsLasting_timer k) h0 hT hs, ?_⟩
  rintro rfl hpos
  obtain ⟨v, hv, hrows⟩ := Agent.rtPurge_expires hr.pathLists hr.tidy hpos
  obtain rfl : v = w' := Except.ok.inj (hv.symm.trans hs')
  intro e he p hp
  obtain ⟨e₀, -, hexp⟩ := exists_of_forall₂ hrows he
  rw [hexp.paths] at hp
  exact of_decide_eq_true (List.mem_filter.mp hp).2

/-- One event keeps the bound, and a tick of the route cache timer raises it. -/
theorem since_next (hr : s.world.toAgent.Reachable) (h : s.next ev = .ok s') (h0 : 0 ≤ L)
    (hlife : ∀ env inp, ev = .input env inp → HearsLasting L inp) (hT : T ≤ ev.env.now - L)
    (hs : s.world.toAgent.Since T) : s'.world.toAgent.Since T ∧
      (ev.Fires .rtimer → 0 < ev.env.now → s'.world.toAgent.Since ev.env.now) := by
  cases ev with
  | start env =>
    change s.quiet.start env = .ok s' at h
    unfold start at h
    obtain ⟨s₁, h₁, h⟩ := of_bind_ok h
    obtain ⟨s₂, h₂, h⟩ := of_bind_ok h
    obtain ⟨s₃, h₃, h⟩ := of_bind_ok h
    obtain ⟨hr₁, hs₁, -⟩ := since_handle (s := s.quiet) hr h₁ h0 hT hs
    obtain ⟨hr₂, hs₂, -⟩ := since_handle hr₁ h₂ h0 hT hs₁
    obtain ⟨hr₃, hs₃, -⟩ := since_handle hr₂ h₃ h0 hT hs₂
    obtain ⟨-, hs₄, htick⟩ := since_handle hr₃ h h0 hT hs₃
    exact ⟨hs₄, fun _ => htick rfl⟩
  | fire k env =>
    obtain ⟨-, hs', htick⟩ := since_handle (s := s.quiet) hr h h0 hT hs
    exact ⟨hs', htick⟩
  | input env inp =>
    obtain ⟨w', hw', h⟩ := of_bind_ok h
    obtain rfl := Except.ok.inj h
    exact ⟨handle_since hw' (hlife env inp rfl) h0 hT hs, fun hk => hk.elim⟩

/-- No path expired more than `L` before the last tick of the route cache timer. -/
structure Swept (L : Time) (s : Timed) : Prop where
  since : s.world.toAgent.Since (-L)
  tick : ∀ u, s.due .rtimer = some u → s.world.toAgent.Since (u - frequency - L)

theorem Run.swept (h : Run t s) (h0 : 0 ≤ L)
    (hlife : ∀ m ∈ t, ∀ env inp, m.label = .input env inp → HearsLasting L inp) : s.Swept L := by
  induction h with
  | @start s h =>
    have hnil : s.world.rtable = [] := by rw [h.agent]
    refine ⟨fun e he => ?_, fun u hu => ?_⟩
    · cases hnil ▸ he
    · cases (h.due .rtimer).symm.trans hu
  | @move t s s' ev hrun hs ih =>
    have ih := ih fun m hm => hlife m (List.mem_append_left _ hm)
    have hlife := hlife _ (List.mem_append_right _ (List.mem_singleton_self _))
    have hsched := Run.schedule hrun
    obtain ⟨hen, hnext⟩ := hs
    obtain ⟨-, hkeep, hset⟩ := next_schedule hnext
    have hnow : 0 ≤ ev.env.now := hsched.clock.trans hen.clock
    have hr : s.world.toAgent.Reachable := Run.reachable hrun
    have hpast := since_next hr hnext h0 hlife (by linarith) ih.since
    refine ⟨hpast.1, fun u hu => ?_⟩
    by_cases hf : ev.Fires .rtimer
    · obtain rfl := Option.some.inj ((hset .rtimer hf).symm.trans hu)
      have hbound : ev.env.now + Timer.interval ev.env .rtimer - frequency - L =
          ev.env.now - L := by
        rw [Timer.interval]
        ring
      rw [hbound]
      rcases hnow.lt_or_eq with hpos | hzero
      · exact fun e he p hp => by linarith [hpast.2 hf hpos e he p hp]
      · rw [← hzero, zero_sub]
        exact hpast.1
    · rw [hkeep .rtimer hf] at hu
      obtain ⟨-, m, hm, -, hdue⟩ := hsched.due .rtimer u hu
      have hle : u - frequency ≤ ev.env.now := by
        rw [hdue, Timer.interval]
        linarith [(hsched.times m hm).2.trans hen.clock]
      exact (since_next hr hnext h0 hlife (by linarith) (ih.tick u hu)).1

/-- Expired paths go. While the timers run, no path is older than it should be by more than the
interval of the route cache timer, if whatever the agent hears promises to last until `L` ago at
least. -/
theorem expired_paths (h : Run t s) (hs : s.Started) (h0 : 0 ≤ L)
    (hlife : ∀ m ∈ t, ∀ env inp, m.label = .input env inp → HearsLasting L inp) :
    ∀ e ∈ s.world.rtable, ∀ p ∈ e.rtPathList, s.clock ≤ p.expire + frequency + L := by
  intro e he p hp
  obtain ⟨u, hu⟩ := Option.isSome_iff_exists.mp (hs .rtimer)
  have hclock := (h.schedule.due .rtimer u hu).1
  linarith [(h.swept h0 hlife).tick u hu e he p hp]

/-- The node that has heard a HELLO has a path that is not older than half a second. -/
theorem expired_paths_hearsHello : ∃ e ∈ ((idle 2).final hearsHello).world.rtable,
    ∃ p ∈ e.rtPathList, ((idle 2).final hearsHello).clock ≤ p.expire + frequency + 0 := by
  have hpath : ∃ e ∈ ((idle 2).final hearsHello).world.rtable, e.rtPathList ≠ [] := by
    decide +kernel
  obtain ⟨e, he, hne⟩ := hpath
  obtain ⟨p, hp⟩ := List.exists_mem_of_ne_nil _ hne
  refine ⟨e, he, p, hp, expired_paths run_hearsHello ?_ le_rfl ?_ e he p hp⟩
  · unfold Started
    decide +kernel
  · intro m hm env inp hl i A hA
    have hinp : Event.input env inp ∈ hearsHello := hl ▸ label_mem_of_moves hm
    obtain rfl : inp = .recv helloOf1 := by
      simp only [hearsHello, List.mem_cons, reduceCtorEq, false_or, Event.input.injEq,
        List.not_mem_nil, or_false] at hinp
      exact hinp.2
    obtain ⟨q, hq, hadv⟩ := hA
    obtain rfl := Input.recv.inj hq
    obtain rfl := Option.some.inj hadv
    exact (by norm_num : (-0 : Time) ≤ 4)

end Timed

/-! ### HELLOs -/

/-- The packet is not a HELLO. -/
def Packet.NotHello (p : Packet) : Prop := ∀ rp, p.body ≠ .hello rp

section NotHello

variable {env : Env} {a : Agent} {w w' : World} {inp : Input} {p q : Packet}

theorem Packet.notHello_rreq (h : ∃ rq, p.body = .rreq rq) : p.NotHello := by
  obtain ⟨rq, h⟩ := h
  exact fun rp hb => by cases h.symm.trans hb

theorem Packet.notHello_rrep (h : ∃ rp, p.body = .rrep rp) : p.NotHello := by
  obtain ⟨rp, h⟩ := h
  exact fun rp hb => by cases h.symm.trans hb

theorem Packet.notHello_rerr (h : ∃ re, p.body = .rerr re) : p.NotHello := by
  obtain ⟨re, h⟩ := h
  exact fun rp hb => by cases h.symm.trans hb

theorem Packet.CopyOf.notHello (h : p.CopyOf q) (hq : q.isEamrp = false) : p.NotHello :=
  fun rp hb => by simp [Packet.isEamrp, ← h.body, hb] at hq

theorem Packet.PassedOn.notHello (h : p.PassedOn q) : q.NotHello := by
  obtain ⟨⟨hq, -⟩ | ⟨hq, -⟩ | ⟨hq, -⟩, -⟩ := h
  · exact fun rp hb => by simp [Packet.isEamrp, hb] at hq
  · exact Packet.notHello_rreq hq
  · exact Packet.notHello_rrep hq

/-- Buffered packets are no HELLOs. -/
theorem notHello_buffered : ∀ x ∈ w.rqueue, x.val.ih.ttl ≠ 0 → ∀ q : Packet, q.CopyOf x.val →
    q.NotHello := fun x _ _ _ hc => hc.notHello x.2

theorem recvApp_notHello {p : AppPacket} (hr : a.Ranged) (hpl : a.PathLists)
    (h : recvApp env p a.world = .ok w') : ∀ q ∈ w'.sent, q.NotHello := by
  have hroute : ∀ x : AppPacket, (if x.val.ih.daddr ≠ ipBroadcast then rtResolve env x a.world
      else forward env none x.val noEamrpDelay a.world) = .ok w' →
      a.world.Emits Packet.NotHello (fun _ => True) w' := by
    intro x h
    split at h
    · refine emits_rtResolve (w := a.world) hr (fun d e he hc => ?_) h
        (fun _ _ => Packet.notHello_rreq) (fun _ _ => Packet.notHello_rerr)
        (fun _ q hc => hc.notHello x.2) fun _ _ _ => trivial
      rcases (hpl.lookup he).flags with hf | hf
      · cases hc.symm.trans hf
      · cases hc.symm.trans hf
    · exact (forward_ok h).emits fun _ q hc => hc.notHello x.2
  have hem : a.world.Emits Packet.NotHello (fun _ => True) w' := by
    unfold recvApp at h
    dsimp only at h
    split at h
    · exact hroute _ h
    · split at h
      · exact Except.ok.inj h ▸ .emit rfl _
      · split at h
        · exact Except.ok.inj h ▸ .emit rfl _
        · exact hroute _ h
  exact fun q hq => (hem.sent q hq).resolve_left List.not_mem_nil

theorem recvEamrp_notHello (h : recvEamrp env p a.world = .ok w') :
    ∀ q ∈ w'.sent, q.NotHello := by
  have hnone : a.world.sent = [] := rfl
  unfold recvEamrp at h
  split at h
  · cases h
  · split at h
    · next rq hb =>
      have hem := emits_recvRequest h ⟨rq, hb⟩ notHello_buffered
        (fun _ _ => Packet.notHello_rrep) fun _ _ hq => hq.notHello
      exact fun q hq => (hem.sent q hq).resolve_left List.not_mem_nil
    · next rp hb =>
      have hem := emits_recvReply h notHello_buffered
        fun _ => ⟨⟨rp, hb⟩, fun _ _ hq => hq.notHello⟩
      exact fun q hq => (hem.sent q hq).resolve_left List.not_mem_nil
    · have hem : a.world.Emits Packet.NotHello (fun _ => True) w' :=
        emits_recvError h fun _ _ => Packet.notHello_rerr
      exact fun q hq => (hem.sent q hq).resolve_left List.not_mem_nil
    · next rp hb =>
      obtain ⟨l, hl⟩ := World.nbHear_eq env rp.rpDst a.world
      change recvReply env _ _ (a.world.nbHear env rp.rpDst) = .ok w' at h
      have hindex : (a.world.nbHear env rp.rpDst).index = a.index := by
        rw [hl]
        rfl
      rw [hl] at h
      have hem := emits_recvReply h notHello_buffered fun hne => (hne hindex).elim
      exact fun q hq => (hem.sent q hq).resolve_left List.not_mem_nil
    · cases h
    · cases h

/-- Only the HELLO timer sends HELLOs. -/
theorem handle_notHello (hr : a.Ranged) (hpl : a.PathLists) (hinp : inp ≠ .helloTimer)
    (h : handle env inp a.world = .ok w') : ∀ q ∈ w'.sent, q.NotHello := by
  cases inp with
  | recv q =>
    change recv env q a.world = .ok w' at h
    unfold recv at h
    split at h
    · exact recvApp_notHello hr hpl h
    · exact recvEamrp_notHello h
  | rtLlFailed q =>
    obtain rfl := Except.ok.inj h
    exact fun q hq => absurd hq List.not_mem_nil
  | broadcastTimer =>
    obtain rfl := Except.ok.inj h
    exact fun q hq => absurd hq List.not_mem_nil
  | helloTimer => exact absurd rfl hinp
  | neighborTimer =>
    have hem : a.world.Emits Packet.NotHello (fun _ => True) w' :=
      emits_nbPurge h (fun _ _ => Packet.notHello_rerr) fun _ _ happ _ _ hc => hc.notHello happ
    exact fun q hq => (hem.sent q hq).resolve_left List.not_mem_nil
  | routeCacheTimer =>
    have hem := emits_rtPurge (w := a.world) hr h (fun _ _ => Packet.notHello_rreq)
      notHello_buffered
    exact fun q hq => (hem.sent q hq).resolve_left List.not_mem_nil
  | ifqueue q =>
    obtain rfl := Except.ok.inj h
    exact fun q hq => absurd hq List.not_mem_nil

/-- A HELLO. -/
def Packet.isHello (p : Packet) : Bool :=
  match p.body with
  | .hello _ => true
  | _ => false

theorem Packet.isHello_iff : p.isHello = true ↔ ∃ rp, p.body = .hello rp := by
  unfold Packet.isHello
  split
  next rp hb => exact ⟨fun _ => ⟨rp, hb⟩, fun _ => rfl⟩
  next hb => exact ⟨nofun, fun ⟨rp, h⟩ => absurd h (hb rp)⟩

/-- The HELLO timer sends one HELLO at most, and nothing else sends any. -/
theorem handle_isHello (hr : a.Ranged) (hpl : a.PathLists) (h : handle env inp a.world = .ok w') :
    w'.sent.countP Packet.isHello ≤ if inp = .helloTimer then 1 else 0 := by
  by_cases hinp : inp = .helloTimer
  · subst hinp
    obtain rfl := Except.ok.inj h
    rw [if_pos rfl]
    refine List.countP_le_length.trans ?_
    split
    · exact le_rfl
    · exact Nat.zero_le 1
  · rw [if_neg hinp, Nat.le_zero, List.countP_eq_zero]
    intro q hq hhello
    obtain ⟨rp, hb⟩ := Packet.isHello_iff.mp hhello
    exact handle_notHello hr hpl hinp h q hq rp hb

/-- So do the events of the agent that follow one another. -/
theorem Agent.Run.isHello {c₀ c : List (Move World Turn)} (hrun : Agent.Run c₀ w)
    (hc : Chain Agent.Handles w c w') : (c.flatMap fun m => m.tgt.sent).countP Packet.isHello ≤
      (c.map Move.label).countP fun τ => decide (τ.input = .helloTimer) := by
  induction hc generalizing c₀ with
  | nil => exact le_rfl
  | @cons w v w' τ c hs _ ih =>
    have hr : w.toAgent.Reachable := ⟨w, ⟨c₀, hrun⟩, rfl⟩
    have hfirst := handle_isHello hr.ranged.1 hr.pathLists hs
    have hrest := ih (hrun.move hs)
    rw [List.flatMap_cons, List.countP_append, List.map_cons, List.countP_cons]
    simp only [decide_eq_true_eq]
    omega

end NotHello

namespace Timed

variable {s s' : Timed} {env : Env} {ev : Event} {t : List (Move Timed Event)} {k : Timer}

/-- The number of HELLOs that the event sends. -/
def helloCount (m : Move Timed Event) : Nat := m.tgt.world.sent.countP Packet.isHello

/-- The event sends a HELLO. -/
def Hellos (m : Move Timed Event) : Prop := ∃ p ∈ m.tgt.world.sent, ∃ rp, p.body = .hello rp

theorem helloCount_pos {m : Move Timed Event} (h : Hellos m) : 0 < helloCount m := by
  obtain ⟨p, hp, hb⟩ := h
  exact List.countP_pos_iff.mpr ⟨p, hp, Packet.isHello_iff.mpr hb⟩

/-- HELLOs are sent by the HELLO timer only, one at a time. -/
theorem Run.helloCount_le (h : Run t s) (hs : s.Step ev s') :
    helloCount ⟨s, ev, s'⟩ ≤ 1 ∧ (0 < helloCount ⟨s, ev, s'⟩ → ev.Fires .htimer) := by
  obtain ⟨c₀, w, hrun, hw, -⟩ := h.agent
  obtain ⟨c, w', hc, -, hlabel, hout⟩ := chain_of_next hs.2 hw
  have hle := hrun.isHello hc
  rw [← sent_of_out hout, hlabel] at hle
  have hcount : helloCount ⟨s, ev, s'⟩ ≤
      ev.turns.countP fun τ => decide (τ.input = .helloTimer) := hle
  cases ev with
  | start env => exact ⟨hcount, fun _ => trivial⟩
  | fire k env =>
    refine ⟨hcount.trans List.countP_le_length, fun hpos => ?_⟩
    obtain ⟨τ, hτ, hi⟩ := List.countP_pos_iff.mp (hpos.trans_le hcount)
    rw [List.mem_singleton.mp hτ] at hi
    exact Timer.input_injective (of_decide_eq_true hi : k.input = Timer.input .htimer)
  | input env inp =>
    refine ⟨hcount.trans List.countP_le_length, fun hpos => ?_⟩
    obtain ⟨τ, hτ, hi⟩ := List.countP_pos_iff.mp (hpos.trans_le hcount)
    rw [List.mem_singleton.mp hτ] at hi
    exact hs.1.input env inp rfl .htimer (of_decide_eq_true hi)

/-- A timer fires no earlier than the least interval after it has fired. -/
theorem Run.due_after (h : Run t s) {δ : Time} (hδ : ∀ env : Env, 0 ≤ env.uniform →
    env.uniform ≤ 1 → δ ≤ k.interval env) :
    ∀ m ∈ t, m.label.Fires k → ∃ u, s.due k = some u ∧ m.label.env.now + δ ≤ u := by
  induction h with
  | start => exact fun _ hm => absurd hm List.not_mem_nil
  | @move t s s' ev hrun hs ih =>
    intro m hm hk
    obtain ⟨hen, hnext⟩ := hs
    obtain ⟨-, hkeep, hset⟩ := next_schedule hnext
    have hint := hδ ev.env hen.uniform.1 hen.uniform.2
    by_cases hf : ev.Fires k
    · refine ⟨_, hset k hf, ?_⟩
      have hle : m.label.env.now ≤ ev.env.now := by
        rcases List.mem_append.mp hm with hm | hm
        · exact ((Run.schedule hrun).times m hm).2.trans hen.clock
        · rw [List.mem_singleton.mp hm]
      linarith
    · rcases List.mem_append.mp hm with hm | hm
      · rw [hkeep k hf]
        exact ih m hm hk
      · obtain rfl := List.mem_singleton.mp hm
        exact absurd hk hf

/-- A timer fires again after at least the least interval. -/
theorem Run.spaced (h : Run t s) {δ : Time} (hδ : ∀ env : Env, 0 ≤ env.uniform →
    env.uniform ≤ 1 → δ ≤ k.interval env) : t.Pairwise fun m m' =>
      m.label.Fires k → m'.label.Fires k → m.label.env.now + δ ≤ m'.label.env.now := by
  induction h with
  | start => exact .nil
  | @move t s s' ev hrun hs ih =>
    refine List.pairwise_append.mpr ⟨ih, List.pairwise_singleton _ _, ?_⟩
    intro m hm m' hm' hk hk'
    obtain rfl := List.mem_singleton.mp hm'
    obtain ⟨u, hu, hle⟩ := Run.due_after hrun hδ m hm hk
    obtain ⟨hen, -⟩ := hs
    cases ev with
    | start env => cases (hen.start env rfl k).symm.trans hu
    | fire k' env =>
      obtain rfl : k' = k := hk'
      obtain rfl := Option.some.inj ((hen.fire k' env rfl).symm.trans hu)
      exact hle
    | input env inp => exact hk'.elim

/-- The bounds of the interval between two HELLOs. -/
theorem interval_htimer {env : Env} (h₀ : 0 ≤ env.uniform) (h₁ : env.uniform ≤ 1) :
    minHelloInterval ≤ Timer.interval env .htimer ∧
      Timer.interval env .htimer ≤ maxHelloInterval := by
  have hspan : (0 : Time) ≤ maxHelloInterval - minHelloInterval := by
    norm_num [maxHelloInterval, minHelloInterval, helloInterval]
  rw [Timer.interval]
  constructor
  · linarith [mul_nonneg hspan h₀]
  · linarith [mul_le_mul_of_nonneg_left h₁ hspan]

/-- While the timers run, the HELLO timer sends a HELLO if there is a route. -/
theorem hellos_of_fires (hs : s.Started) (hstep : s.Step ev s') (hk : ev.Fires .htimer)
    (hroute : s.world.rtable.rtHasActiveRoute = true) : Hellos ⟨s, ev, s'⟩ := by
  obtain ⟨hen, hnext⟩ := hstep
  cases ev with
  | start env =>
    have := hs .htimer
    rw [hen.start env rfl .htimer] at this
    cases this
  | fire k env =>
    obtain rfl : k = .htimer := hk
    obtain ⟨w', hs', -, hout, -⟩ := handle_ok hnext rfl
    have hw' : w' = sendHello s.quiet.world :=
      (Except.ok.inj hs').symm.trans (if_pos hroute)
    unfold Hellos
    rw [World.sent, hout, hw']
    exact ⟨_, List.mem_singleton_self _, _, rfl⟩
  | input env inp => exact hk.elim

/-- As long as there is a route and no HELLO is sent, the HELLO timer has not fired. -/
theorem due_of_silence (hs : s.Started) (h : Chain Step s t s')
    (hroute : ∀ m ∈ t, m.src.world.rtable.rtHasActiveRoute = true)
    (hsilent : ∀ m ∈ t, ¬ Hellos m) : s'.due .htimer = s.due .htimer := by
  induction h with
  | nil => rfl
  | @cons s s₁ s' ev t hstep _ ih =>
    obtain ⟨hr, hroute⟩ := List.forall_mem_cons.mp hroute
    obtain ⟨hno, hsilent⟩ := List.forall_mem_cons.mp hsilent
    rw [ih (hs.step hstep) hroute hsilent]
    exact (next_schedule hstep.2).2.1 .htimer fun hk => hno (hellos_of_fires hs hstep hk hr)

/-- The HELLOs of an agent. An event sends one at most, and two of them are `MinHelloInterval`
apart at least. While the timers run, and the agent has a route all the time, a HELLO is sent
whenever more than `MaxHelloInterval` passes. -/
theorem hello_rate (h : Run t s) :
    (∀ m ∈ t, helloCount m ≤ 1) ∧
    t.Pairwise (fun m m' => Hellos m → Hellos m' →
      m.label.env.now + minHelloInterval ≤ m'.label.env.now) ∧
    ∀ u m v, t = u ++ m :: v → m.tgt.Started → m.tgt.clock + maxHelloInterval < s.clock →
      (∀ m' ∈ v, m'.src.world.rtable.rtHasActiveRoute = true) → ∃ m' ∈ v, Hellos m' := by
  have hcount : ∀ m ∈ t, helloCount m ≤ 1 ∧ (0 < helloCount m → m.label.Fires .htimer) := by
    intro m hm
    obtain ⟨⟨u, hu⟩, hs⟩ := Lib.Run.of_mem h hm
    exact Run.helloCount_le hu hs
  refine ⟨fun m hm => (hcount m hm).1, ?_, ?_⟩
  · have hmin := h.spaced (k := .htimer) fun env h₀ h₁ => (interval_htimer h₀ h₁).1
    refine hmin.imp_of_mem fun {m m'} hm hm' hle hh hh' => hle ?_ ?_
    · exact (hcount m hm).2 (helloCount_pos hh)
    · exact (hcount m' hm').2 (helloCount_pos hh')
  · rintro u m v rfl hstart hlong hroute
    by_contra hnone
    have hsilent : ∀ m' ∈ v, ¬ Hellos m' := fun m' hm' hh => hnone ⟨m', hm', hh⟩
    obtain ⟨τ, hτ⟩ := Option.isSome_iff_exists.mp (hstart .htimer)
    obtain ⟨hu, hm⟩ := Lib.Run.of_append h
    have hmid : Run (u ++ [m]) m.tgt := Lib.Run.move hu hm
    obtain ⟨-, m', hm', -, hdue⟩ := hmid.schedule.due .htimer τ hτ
    have hend := due_of_silence hstart (Lib.Run.chain_after h) hroute hsilent
    have hclock := (h.schedule.due .htimer τ (hend.trans hτ)).1
    obtain ⟨h₀, h₁⟩ := hmid.schedule.uniform m' hm'
    have hmax := (interval_htimer h₀ h₁).2
    have hpast := (hmid.schedule.times m' hm').2
    linarith

/-- The same node half a second later. -/
def steady : List Event :=
  hearsHello ++ [.fire .rtimer { now := 1, inf := .mathH },
    .fire .htimer { now := 3 / 2, inf := .mathH }, .fire .rtimer { now := 3 / 2, inf := .mathH }]

theorem run_steady : Run ((idle 2).moves steady) ((idle 2).final steady) :=
  run_idle (by decide +kernel)

/-- Since it has heard the HELLO, it has sent one itself. -/
theorem hello_rate_steady : ∃ m ∈ ((idle 2).moves steady).drop 2, Hellos m :=
  (hello_rate run_steady).2.2 [_] _ _ rfl (by unfold Started; decide +kernel) (by decide +kernel)
    (by decide +kernel)

end Timed

end Eamrp
