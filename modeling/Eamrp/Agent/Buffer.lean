import Eamrp.Agent.RouteUpdate
import Eamrp.Abs.Calls

/-!
# The send buffer

Packets wait in the send buffer for a route. A packet gets there only while the route to its
destination is down, and the event in which the route comes up flushes the buffer, so between
events no packet waits for a route which is there.
-/

namespace Eamrp

open Lib

/-! ### Effects -/

/-- The effect is what `forward` does with the packet. -/
def Effect.Forwards (p : Packet) : Effect → Prop
  | .target q _ => q.ih = p.ih ∧ q.body = p.body
  | .drop q reason => q = p ∧ reason = .ttl
  | .dmux q => q = p

/-- The effects are what `forward` does with the packets, one after the other. -/
def ForwardsEach (q : List AppPacket) (l : List Effect) : Prop :=
  List.Forall₂ (fun p x => Effect.Forwards p.val x) q l

/-- The effect is that a packet is dropped for this reason. -/
def Effect.Drops (reason : DropReason) : Effect → Prop
  | .drop _ r => r = reason
  | _ => False

section Effects

variable {env : Env} {w w' : World}

theorem Forwarded.out {p : Packet} {rt : Option NsAddr} (h : Forwarded env p w rt w') :
    ∃ x, w'.out = w.out ++ [x] ∧ x.Forwards p := by
  cases h with
  | expired => exact ⟨_, rfl, rfl, rfl⟩
  | dmux => exact ⟨_, rfl, rfl⟩
  | unicast => exact ⟨_, rfl, rfl, rfl⟩
  | broadcast => exact ⟨_, rfl, rfl, rfl⟩

/-- `dropBuffered` takes packets out of the buffer and does nothing else but drop them. -/
theorem dropBuffered_ok {dst : NsAddr} {reason : DropReason}
    (h : dropBuffered env dst reason w = .ok w') :
    w.Calm w' ∧ ∀ x ∈ w'.out, x ∈ w.out ∨ x.Drops reason := by
  unfold dropBuffered at h
  obtain ⟨⟨v, u⟩, hv, h⟩ := of_bind_ok h
  obtain rfl := Except.ok.inj h
  refine whileDeque_ok (J := fun s => w.Calm s.1 ∧ ∀ x ∈ s.1.out, x ∈ w.out ∨ x.Drops reason)
    ?_ ?_ ⟨.refl w, fun x hx => .inl hx⟩ hv
  · rintro x _ q hq ⟨hc, ho⟩
    exact ⟨hc.trans (.of_rtable rfl rfl rfl rfl hq (List.prefix_refl _)), ho⟩
  · rintro p x _ q s' _ _ _ ⟨hc, ho⟩ hb
    obtain rfl := Except.ok.inj hb
    refine ⟨hc.trans (.emit _ _), fun y hy => ?_⟩
    rcases List.mem_append.mp hy with hy | hy
    · exact ho y hy
    · obtain rfl := List.mem_singleton.mp hy
      exact .inr rfl

/-- `sendRequest` sends at most a RREQ, or drops the packets that wait. -/
theorem sendRequest_ok {dst : NsAddr} (h : sendRequest env dst w = .ok w') :
    w.Calm w' ∧ ∀ x ∈ w'.out, x ∈ w.out ∨ x.Requests w.index ∨ x.Drops .noRoute := by
  cases sendRequest_asked h with
  | up => exact ⟨.refl w, fun x hx => .inl hx⟩
  | early => exact ⟨.refl w, fun x hx => .inl hx⟩
  | @hold e _ he _ _ _ h =>
    obtain ⟨hc, ho⟩ := dropBuffered_ok h
    have hst : w.Calm (w.store { e with rtReqTimeout := env.now + maxRreqTimeout, rtReqCnt := 0 }) :=
      .store he ⟨rfl, rfl, rfl, rfl, rfl⟩
    exact ⟨hst.trans hc, fun x hx => (ho x hx).imp id .inr⟩
  | @send e he =>
    constructor
    · have hst : w.Calm (w.store (e.requested env.now)) := .store he ⟨rfl, rfl, rfl, rfl, rfl⟩
      refine hst.trans (World.Calm.trans ?_ (.send _ _ _))
      exact .of_rtable rfl rfl rfl rfl (List.Sublist.refl _) (List.prefix_refl _)
    · intro x hx
      rcases List.mem_append.mp hx with hx | hx
      · exact .inl hx
      · obtain rfl := List.mem_singleton.mp hx
        exact .inr (.inl ⟨_, rfl, rfl⟩)

/-- A loop over the packets for a destination for which there is none. -/
theorem whileDeque_none {β : Type} {dst : NsAddr}
    {body : AppPacket → World × β → Except Fault (World × β)} {b : β}
    (hnone : ∀ p ∈ w.rqueue, p.val.ih.daddr ≠ dst) (n : Nat) :
    World.whileDeque env dst body (n + 1) (w, b) =
      .ok ({ w with rqueue := w.rqueue.drained env.now dst }, b) := by
  unfold World.whileDeque
  rcases w.rqueue.deque_cases env.now dst with ⟨p, q, -, hdeq⟩ | ⟨hq, -⟩
  · exact absurd hdeq.daddr (hnone p hdeq.mem)
  · have hw : w.deque env dst = (none, { w with rqueue := w.rqueue.drained env.now dst }) := by
      simp only [World.deque, hq]
    rw [hw]

end Effects

/-! ### Lulls -/

namespace Agent

/-- The packet is one of the node's own and its route is not up. -/
structure Waiting (a : Agent) (p : AppPacket) : Prop where
  saddr : p.val.ih.saddr = a.index
  numForwards : p.val.ch.numForwards = 0
  entry : ∃ e, a.rtable.rtLookup p.val.ih.daddr = some e ∧ e.rtFlags ≠ .up

/-- Whatever is in the send buffer waits for a route. -/
def Waits (a : Agent) : Prop := ∀ p ∈ a.rqueue, a.Waiting p

/-- No packet waits for a route that is up. -/
theorem Waits.daddr_ne {a : Agent} (h : a.Waits) {d : NsAddr} {e : RtEntry}
    (hd : a.rtable.rtLookup d = some e) (hup : e.rtFlags = .up) :
    ∀ p ∈ a.rqueue, p.val.ih.daddr ≠ d := by
  rintro p hp rfl
  obtain ⟨f, hf, hdown⟩ := (h p hp).entry
  obtain rfl := Option.some.inj (hf.symm.trans hd)
  exact hdown hup

end Agent

/-- No route comes up, and only packets that wait for a route enter the send buffer. -/
structure World.Lull (w w' : World) : Prop where
  index : w'.index = w.index
  down : ∀ d e, w.rtLookup d = some e → e.rtFlags ≠ .up →
    ∃ e', w'.rtLookup d = some e' ∧ e'.rtFlags ≠ .up
  rqueue : ∀ p ∈ w'.rqueue, p ∈ w.rqueue ∨ w'.Waiting p

namespace World.Lull

variable {w w' w'' : World}

theorem of_calm (h : w.Calm w') : w.Lull w' where
  index := h.index
  down d e he hdown := by
    obtain ⟨e', he', hc⟩ := h.entry d e he
    exact ⟨e', he', hc.rtFlags ▸ hdown⟩
  rqueue p hp := .inl (h.rqueue.subset hp)

/-- Losing routes brings none up. -/
theorem of_loss {now : Time} (h : w.Deeds (RtEntry.Loss now) w') : w.Lull w' where
  index := h.index
  down d e he hdown := by
    obtain ⟨e', he', hloss⟩ := h.entry d e he
    refine ⟨e', he', ?_⟩
    rcases hloss.rtFlags with hf | hf
    · rw [hf]
      exact hdown
    · rw [hf]
      exact fun hc => by cases hc
  rqueue p hp := .inl (h.rqueue.subset hp)

theorem refl (w : World) : w.Lull w := of_calm (.refl w)

/-- In a lull a packet keeps waiting. -/
theorem waiting (h : w.Lull w') {p : AppPacket} (hp : w.Waiting p) : w'.Waiting p where
  saddr := hp.saddr.trans h.index.symm
  numForwards := hp.numForwards
  entry := by
    obtain ⟨e, he, hdown⟩ := hp.entry
    exact h.down _ e he hdown

theorem waits (h : w.Lull w') (hw : w.Waits) : w'.Waits := by
  intro p hp
  rcases h.rqueue p hp with hp | hp
  · exact h.waiting (hw p hp)
  · exact hp

theorem trans (h : w.Lull w') (h' : w'.Lull w'') : w.Lull w'' where
  index := h'.index.trans h.index
  down d e he hdown := by
    obtain ⟨e', he', hdown'⟩ := h.down d e he hdown
    exact h'.down d e' he' hdown'
  rqueue p hp := by
    rcases h'.rqueue p hp with hp | hp
    · exact (h.rqueue p hp).imp id h'.waiting
    · exact .inr hp

/-- The routing table stays, and so does the buffer. -/
theorem of_eq (hi : w'.index = w.index) (ht : w'.rtable = w.rtable)
    (hq : w'.rqueue.Sublist w.rqueue) : w.Lull w' where
  index := hi
  down d e he hdown := ⟨e, by rwa [rtLookup, ht], hdown⟩
  rqueue p hp := .inl (hq.subset hp)

/-- An entry changes that was up. -/
theorem store {d : NsAddr} {e e' : RtEntry} (hl : w.rtLookup d = some e) (hd : e'.rtDst = d)
    (hup : e.rtFlags = .up) : w.Lull (w.store e') where
  index := rfl
  down d' x hx hdown := by
    refine ⟨x, ?_, hdown⟩
    rw [rtLookup_store_ne]
    · exact hx
    · rintro rfl
      rw [hd, hl] at hx
      obtain rfl := Option.some.inj hx
      exact hdown hup
  rqueue _ hp := .inl hp

end World.Lull

section Maintenance

variable {env : Env} {w w' : World}

/-- The turn of `rt_purge` at an entry, when no packet waits for a route that is up. -/
theorem lull_rtPurgeEntry {dst : NsAddr} {s s' : World × Time} (hw : s.1.Waits)
    (h : rtPurgeEntry env s dst = .ok s') :
    s.1.Lull s'.1 ∧ ∀ x ∈ s'.1.out, x ∈ s.1.out ∨ x.Requests s.1.index ∨ x.Drops .noRoute := by
  unfold rtPurgeEntry at h
  split at h
  · obtain rfl := Except.ok.inj h
    exact ⟨.refl _, fun _ hx => .inl hx⟩
  · next e he =>
    have hd := s.1.rtDst_of_rtLookup he
    split at h
    · next hc =>
      have hnone := hw.daddr_ne he hc.1
      obtain ⟨k, -, hpurge⟩ := e.pathPurge_eq env.now
      obtain ⟨b, -, h⟩ := of_bind_ok h
      split at h
      · obtain ⟨v, hv, h⟩ := of_bind_ok h
        obtain rfl := Except.ok.inj h
        unfold dropBuffered at hv
        rw [whileDeque_none hnone] at hv
        obtain rfl := Except.ok.inj hv
        have hq : s.1.Lull { s.1 with rqueue := s.1.rqueue.drained env.now dst } :=
          .of_eq rfl rfl (RQueue.drained_sublist _ _ _)
        have hdst : ((e.pathPurge env.now).expired env.inf).rtDst = dst := by
          rw [RtEntry.expired, RtEntry.rtDst_rtDown, hpurge]
          exact hd
        exact ⟨hq.trans (.store he hdst hc.1), fun _ hx => .inl hx⟩
      · obtain rfl := Except.ok.inj h
        exact ⟨.store he (by rw [hpurge]; exact hd) hc.1, fun _ hx => .inl hx⟩
    · split at h
      · next hup =>
        split at h
        · cases h
        · obtain ⟨w, delay⟩ := s
          rw [whileDeque_none (hw.daddr_ne he hup)] at h
          obtain rfl := Except.ok.inj h
          exact ⟨.of_eq rfl rfl (RQueue.drained_sublist _ _ _), fun _ hx => .inl hx⟩
      · split at h
        · obtain ⟨v, hv, h⟩ := of_bind_ok h
          obtain rfl := Except.ok.inj h
          obtain ⟨hc, ho⟩ := sendRequest_ok hv
          exact ⟨.of_calm hc, ho⟩
        · obtain rfl := Except.ok.inj h
          exact ⟨.refl _, fun _ hx => .inl hx⟩

/-- `rt_purge` forwards nothing. -/
theorem lull_rtPurge (hw : w.Waits) (h : rtPurge env w = .ok w') :
    w.Lull w' ∧ ∀ x ∈ w'.out, x ∈ w.out ∨ x.Requests w.index ∨ x.Drops .noRoute := by
  unfold rtPurge at h
  obtain ⟨⟨v, delay⟩, hv, h⟩ := of_bind_ok h
  obtain rfl := Except.ok.inj h
  refine foldlM_ok (J := fun s : World × Time => w.Lull s.1 ∧
    ∀ x ∈ s.1.out, x ∈ w.out ∨ x.Requests w.index ∨ x.Drops .noRoute) ?_
    ⟨.refl w, fun _ hx => .inl hx⟩ hv
  rintro s dst - s' ⟨hl, ho⟩ hs
  obtain ⟨hl', ho'⟩ := lull_rtPurgeEntry (hl.waits hw) hs
  refine ⟨hl.trans hl', fun x hx => ?_⟩
  rcases ho' x hx with hx | hx
  · exact ho x hx
  · exact .inr (hl.index ▸ hx)

end Maintenance

section Applications

variable {env : Env} {w w' : World} {p : AppPacket}

/-- `enque` lets packets in that are already there, and the new one with another timeout. -/
theorem mem_enque {now : Time} {q : RQueue} {x : AppPacket} (hx : x ∈ (q.enque now p).1) :
    x ∈ q ∨ x = p.withCmn { p.val.ch with ts := now + RQueue.timeout } := by
  unfold RQueue.enque at hx
  dsimp only at hx
  have hsub : ∀ y ∈ RQueue.purge now q, y ∈ q := fun y hy => (List.mem_filter.mp hy).1
  split at hx
  · split at hx
    · exact .inr (List.mem_singleton.mp hx)
    · next p₀ q' hq =>
      rcases List.mem_append.mp hx with hx | hx
      · exact .inl (hsub x (hq ▸ List.mem_cons_of_mem _ hx))
      · exact .inr (List.mem_singleton.mp hx)
  · rcases List.mem_append.mp hx with hx | hx
    · exact .inl (hsub x hx)
    · exact .inr (List.mem_singleton.mp hx)

theorem World.Lull.enque {e : RtEntry} (hs : p.val.ih.saddr = w.index)
    (hn : p.val.ch.numForwards = 0) (hd : w.rtLookup p.val.ih.daddr = some e)
    (hdown : e.rtFlags ≠ .up) : w.Lull (w.enque env p) where
  index := rfl
  down d e he hdown := ⟨e, he, hdown⟩
  rqueue x hx := by
    rcases mem_enque hx with hx | rfl
    · exact .inl hx
    · exact .inr ⟨hs, hn, e, hd, hdown⟩

/-- A missing entry is added, and it is not up. -/
theorem lull_rtEnsure {d : NsAddr} (h : w.rtEnsure env d = .ok w') : w.Lull w' := by
  obtain ⟨hself, heq, hother⟩ := World.rtEnsure_ok h
  refine ⟨by rw [heq], fun d' e he hdown => ?_, fun p hp => .inl (by rw [heq] at hp; exact hp)⟩
  by_cases hd : d' = d
  · subst hd
    refine ⟨e, ?_, hdown⟩
    rw [hself, World.entryFor, he, Option.getD_some]
  · exact ⟨e, by rw [hother d' hd, he], hdown⟩

theorem lull_rtResolve (hn : p.val.ih.saddr = w.index → p.val.ch.numForwards = 0)
    (hrepair : ∀ d e, w.rtLookup d = some e → e.rtFlags ≠ .inRepair)
    (h : rtResolve env p w = .ok w') : w.Lull w' := by
  unfold rtResolve at h
  obtain ⟨v, hv, h⟩ := of_bind_ok h
  have hlull := lull_rtEnsure hv
  have hi : v.index = w.index := by rw [(World.rtEnsure_ok hv).2.1]
  split at h
  · cases h
  · next e he =>
    have hnot : e.rtFlags ≠ .inRepair := World.rtEnsure_not_inRepair hrepair hv he
    split at h
    · split at h
      · cases h
      · exact hlull.trans (.of_calm (forward_ok h).calm)
    · next hdown =>
      split at h
      · next hs =>
        refine hlull.trans (World.Lull.trans ?_ (.of_calm (sendRequest_ok h).1))
        exact .enque hs (hn (hs.trans hi)) he hdown
      · split at h
        · cases h
        · obtain ⟨re, -, h⟩ := of_bind_ok h
          obtain rfl := Except.ok.inj h
          exact hlull.trans (.of_calm ((World.Calm.send _ _ _).trans (.emit _ _)))

end Applications

/-! ### Flushes -/

section Flush

variable {env : Env} {w w' : World} {A : Advert}

/-- When the route to `d` is up, the packets for `d` that have not timed out are forwarded one after
the other, and that is all. -/
theorem flushed_routeUp {d : NsAddr} {e : RtEntry} (hd : w.rtLookup d = some e)
    (hup : e.rtFlags = .up) (h : routeUp env d w = .ok w') :
    ∃ l, w'.out = w.out ++ l ∧ ForwardsEach (w.rqueue.queued env.now d) l := by
  unfold routeUp at h
  simp only [hd, hup, if_true] at h
  obtain ⟨⟨v, u⟩, hv, h⟩ := of_bind_ok h
  obtain rfl := Except.ok.inj h
  have hdst : e.resetSoftState.rtDst = d := (w.rtDst_of_rtLookup hd :)
  have hst : (w.store e.resetSoftState).rtLookup d = some e.resetSoftState :=
    World.rtLookup_store_self hd hdst
  have hlen : (w.store e.resetSoftState).rqueue.length <
      (w.store e.resetSoftState).rqueue.length + 1 := Nat.lt_succ_self _
  refine whileDeque_each (s := (w.store e.resetSoftState, ()))
    (J := fun s => ∃ f, s.1.rtLookup d = some f ∧ f.rtFlags = .up)
    (Q := fun q s => ∃ l, s.1.out = w.out ++ l ∧ ForwardsEach q l)
    (fun _ _ _ hs => hs) (fun _ _ _ _ hx => hx) ?_ hlen ⟨_, hst, hup⟩ (l := [])
    ⟨[], (List.append_nil _).symm, .nil⟩ hv
  rintro q p ⟨x, b⟩ s' ⟨f, hf, hfup⟩ ⟨l, hl, hall⟩ hb
  simp only [hf, hfup, if_true] at hb
  obtain ⟨y, hy, hb⟩ := of_bind_ok hb
  obtain rfl := Except.ok.inj hb
  obtain ⟨z, hz, hfwd⟩ := (forward_ok hy).out
  obtain ⟨f', hf', hcalm⟩ := (forward_ok hy).calm.entry d f hf
  refine ⟨⟨f', hf', hcalm.rtFlags.trans hfup⟩, (forward_ok hy).rqueue, l ++ [z], ?_, ?_⟩
  · have hl : x.out = w.out ++ l := hl
    rw [hz, hl, List.append_assoc]
  · exact List.rel_append hall (.cons hfwd .nil)

/-- The packets that waited for a route are dealt with once it is up: unless they have timed out,
`forward` is called with one after the other. -/
def World.Flushed (env : Env) (w w' : World) : Prop :=
  ∀ d e, w'.rtLookup d = some e → e.rtFlags = .up → ∃ l, l.Sublist w'.out ∧
    ForwardsEach (w.rqueue.queued env.now d) l

/-- No packet is buffered for a route that is up now, if the routes of all packets are down. -/
theorem World.queued_of_down {d : NsAddr} {e : RtEntry} (he : w'.rtLookup d = some e)
    (hup : e.rtFlags = .up) (h : ∀ p ∈ w.rqueue, p.val.ih.daddr = d →
      ∃ f, w'.rtLookup p.val.ih.daddr = some f ∧ f.rtFlags ≠ .up) :
    w.rqueue.queued env.now d = [] := by
  refine List.filter_eq_nil_iff.mpr fun p hp hd => ?_
  obtain ⟨f, hf, hdown⟩ := h p (List.mem_filter.mp hp).1 (beq_iff_eq.mp hd)
  rw [beq_iff_eq.mp hd] at hf
  obtain rfl := Option.some.inj (hf.symm.trans he)
  exact hdown hup

/-- In a lull no route comes up. -/
theorem World.Lull.flushed (h : w.Lull w') (hw : w.Waits) : w.Flushed env w' := by
  intro d e he hup
  rw [World.queued_of_down he hup fun p hp _ => (h.waiting (hw p hp)).entry]
  exact ⟨[], List.nil_sublist _, .nil⟩

/-- The route update is a lull, unless it brings the route up. -/
theorem World.Learned.lull {u : World} (h : World.Learned env A w u)
    (hdown : ((w.entryFor env A.dst).learn env w.toAgent A).rtFlags = .up →
      (w.entryFor env A.dst).rtFlags = .up) : w.Lull u where
  index := h.index
  down d e he hne := by
    by_cases hd : d = A.dst
    · subst hd
      have hentry : w.entryFor env A.dst = e := by rw [entryFor, he, Option.getD_some]
      refine ⟨_, h.self, fun hup => hne ?_⟩
      rw [← hentry]
      exact hdown hup
    · exact ⟨e, by rw [h.other d hd, he], hne⟩
  rqueue p hp := .inl (by rwa [h.rqueue] at hp)

/-- Hearing an advertisement leaves no packet waiting for a route that is up. -/
theorem HearsAdvert.waits (h : HearsAdvert env A w w') (hw : w.Waits) :
    w'.Waits ∧ w.Flushed env w' := by
  obtain ⟨u, hu, hrest⟩ := h
  by_cases hup : ((w.entryFor env A.dst).learn env w.toAgent A).rtFlags = .up
  · rcases hrest with ⟨rfl, hold⟩ | ⟨x, hx, hcalm⟩
    · rw [RtEntry.rtFlags_learn hold] at hup
      have hlull := hu.lull fun _ => hup
      exact ⟨hlull.waits hw, hlull.flushed hw⟩
    · have hqueue := rqueue_routeUp hu.self hup hx
      obtain ⟨l, hl, hflush⟩ := flushed_routeUp hu.self hup hx
      have hall : u.Calm w' := (calm_routeUp hx).trans hcalm
      rw [hu.rqueue] at hqueue hflush
      -- The entries of other destinations stay as they are, up to calm changes.
      have hother : ∀ p ∈ w.rqueue, p.val.ih.daddr ≠ A.dst → ∃ e, w'.rtLookup p.val.ih.daddr =
          some e ∧ e.rtFlags ≠ .up := by
        intro p hp hne
        obtain ⟨e, he, hdown⟩ := (hw p hp).entry
        have he : w.rtLookup p.val.ih.daddr = some e := he
        obtain ⟨f, hf, hc⟩ := hall.entry _ e (by rw [hu.other _ hne, he])
        exact ⟨f, hf, hc.rtFlags ▸ hdown⟩
      constructor
      · intro p hp
        have hp' := hcalm.rqueue.subset hp
        rw [hqueue] at hp'
        obtain ⟨hmem, hne⟩ := List.mem_filter.mp hp'
        have hmem := (List.mem_filter.mp hmem).1
        have hold := hw p hmem
        exact ⟨hold.saddr.trans (hall.index.trans hu.index).symm, hold.numForwards,
          hother p hmem (by simpa using hne)⟩
      · intro d e he heup
        by_cases hd : d = A.dst
        · subst hd
          refine ⟨l, List.Sublist.trans ?_ hcalm.out.sublist, hflush⟩
          rw [hl]
          exact List.sublist_append_right _ _
        · refine ⟨[], List.nil_sublist _, ?_⟩
          rw [World.queued_of_down he heup fun p hp hpd => hother p hp (hpd ▸ hd)]
          exact .nil
  · have hlull := hu.lull fun hc => absurd hc hup
    have hall : w.Lull w' := by
      rcases hrest with ⟨rfl, -⟩ | ⟨x, hx, hcalm⟩
      · exact hlull
      · exact hlull.trans (.of_calm ((calm_routeUp hx).trans hcalm))
    exact ⟨hall.waits hw, hall.flushed hw⟩

/-- One event keeps the packets waiting, or flushes them. -/
theorem handle_waits {inp : Input} (h : handle env inp w = .ok w') (hw : w.Waits)
    (hpl : w.toAgent.PathLists) : w'.Waits ∧ w.Flushed env w' := by
  cases handle_happens h with
  | @hears A hA =>
    obtain ⟨hown, hother⟩ := handle_hears h hA
    by_cases hne : A.dst = w.index
    · have hlull := World.Lull.of_calm (hown hne)
      exact ⟨hlull.waits hw, hlull.flushed hw⟩
    · exact (hother hne).waits hw
  | resolve hq hr =>
    have hlull : w.Lull w' := by
      refine lull_rtResolve hq.numForwards (fun d e he hc => ?_) hr
      rcases (hpl.lookup he).flags with hf | hf
      · rw [hf] at hc
        cases hc
      · rw [hf] at hc
        cases hc
    exact ⟨hlull.waits hw, hlull.flushed hw⟩
  | purge _ hr =>
    have hlull := (lull_rtPurge hw hr).1
    exact ⟨hlull.waits hw, hlull.flushed hw⟩
  | loss _ _ _ hl =>
    have hlull := World.Lull.of_loss hl
    exact ⟨hlull.waits hw, hlull.flushed hw⟩

end Flush

namespace Agent

theorem Reachable.waits {a : Agent} (h : a.Reachable) : a.Waits := by
  obtain ⟨w, hw, rfl⟩ := h
  refine Lib.Reachable.induct (I := fun w => w.Waits) ?_ ?_ hw
  · intro w hw
    unfold Waits
    rw [hw.initial]
    exact fun p hp => absurd hp List.not_mem_nil
  · intro w τ w' hr hwaits hs
    exact (handle_waits (w := w.toAgent.world) hs hwaits (Reachable.pathLists ⟨w, hr, rfl⟩)).1

/-- Whenever the loop of `rt_purge` comes to an entry that is up, no packet is buffered for it. -/
def PurgeFindsNone (env : Env) (a : Agent) : Prop :=
  ∀ u d v s, a.rtable.map RtEntry.rtDst = u ++ d :: v →
    u.foldlM (rtPurgeEntry env) (a.world, 0) = .ok s →
    ∀ e, s.1.rtLookup d = some e → e.rtFlags = .up → ∀ p ∈ s.1.rqueue, p.val.ih.daddr ≠ d

theorem Waits.purgeFindsNone {a : Agent} (h : a.Waits) (env : Env) : a.PurgeFindsNone env := by
  intro u d v s _ hs e he hup
  have hwaits : s.1.Waits := by
    refine foldlM_ok (J := fun s : World × Time => s.1.Waits) ?_ h hs
    exact fun s dst _ s' hw hs => (lull_rtPurgeEntry hw hs).1.waits hw
  exact hwaits.daddr_ne he hup

/-- No packet is stranded in the send buffer: between events every packet in it is one of the
node's own, and its route is there but not up. An event that brings a route up calls `forward`
with the packets buffered for it one after the other, unless they have timed out, and `rt_purge`
finds no packet to forward and forwards none. -/
theorem buffer_waits {a : Agent} (h : a.Reachable) :
    a.Waits ∧ (∀ env inp w', handle env inp a.world = .ok w' → a.world.Flushed env w') ∧
      (∀ env, a.PurgeFindsNone env) ∧
      ∀ env w', rtPurge env a.world = .ok w' →
        ∀ x ∈ w'.out, x.Requests a.index ∨ x.Drops .noRoute := by
  have hw := h.waits
  refine ⟨hw, fun env inp w' hs => (handle_waits hs hw h.pathLists).2,
    fun env => hw.purgeFindsNone env, fun env w' hs x hx => ?_⟩
  rcases (lull_rtPurge (w := a.world) hw hs).2 x hx with hx | hx
  · exact absurd hx List.not_mem_nil
  · exact hx

/-- Node 1 is handed a packet for node 3, to which it has no route. -/
def ask : List Turn :=
  [⟨{ now := 0, inf := .mathH },
    .recv { ih := { saddr := 1, daddr := 3 }, body := .app true }⟩]

theorem buffer_waits_ask :
    (final (idle 1) ask).rqueue ≠ [] ∧ (final (idle 1) ask).toAgent.Waits :=
  ⟨by decide +kernel, (buffer_waits ⟨_, ⟨_, run_idle (by decide +kernel)⟩, rfl⟩).1⟩

end Agent

end Eamrp
