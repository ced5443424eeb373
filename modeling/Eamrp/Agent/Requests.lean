import Eamrp.Abs.Asking
import Eamrp.Agent.RouteUpdate

/-!
# Route requests

In every event each destination takes one turn of its request machine. `sendRequest` is called
for it at most once, and what happens to other destinations on the way does not matter.
-/

namespace Eamrp

open Lib

/-! ### One call of `sendRequest` -/

namespace World

variable {w w' : World} {d : NsAddr}

/-- Nothing is asked for `d`. -/
structure Silent (d : NsAddr) (w w' : World) : Prop where
  asking : w'.asking d = w.asking d
  ttls : w'.ttls d = w.ttls d

theorem Silent.refl (d : NsAddr) (w : World) : w.Silent d w := ⟨rfl, rfl⟩

theorem Silent.trans {w'' : World} (h : w.Silent d w') (h' : w'.Silent d w'') :
    w.Silent d w'' :=
  ⟨h'.asking.trans h.asking, h'.ttls.trans h.ttls⟩

theorem Deeds.silent {now : Time} (h : w.Deeds (RtEntry.Use now) w') (d : NsAddr) :
    w.Silent d w' :=
  ⟨h.asking d, h.ttls d⟩

theorem asking_store_self {e e' : RtEntry} (he : w.rtLookup d = some e)
    (hd : e'.rtDst = e.rtDst) : (w.store e').asking d = e'.asking :=
  asking_of_some (rtLookup_store_self he (hd.trans (w.rtDst_of_rtLookup he)))

/-- Looking up an entry or adding it. -/
theorem silent_rtEnsure {env : Env} {d' : NsAddr} (h : w.rtEnsure env d' = .ok w') (d : NsAddr) :
    w.Silent d w' := by
  refine ⟨asking_rtEnsure h d, ?_⟩
  unfold rtEnsure at h
  split at h
  · obtain rfl := Except.ok.inj h
    rfl
  · obtain ⟨-, rfl⟩ := rtAdd_ok h
    rfl

/-- Writing another entry. -/
theorem silent_store {e : RtEntry} (hd : d ≠ e.rtDst) (w : World) : w.Silent d (w.store e) :=
  ⟨asking_congr (rtLookup_store_ne hd), rfl⟩

/-- A packet enters the send buffer, and others may be dropped for it. -/
theorem silent_enque (env : Env) (w : World) (p : AppPacket) (d : NsAddr) :
    w.Silent d (w.enque env p) := by
  refine ⟨rfl, ?_⟩
  have hsent := (SameRouting.enque env w p).sent
  rw [ttls, requests, hsent]
  rfl

theorem ttls_of_requests {r : Int × HdrRequest} (h : w'.requests = w.requests ++ [r]) :
    w'.ttls d = w.ttls d ++ if r.2.rqDst = d then [r.1] else [] := by
  rw [ttls, h, List.filter_append, List.map_append, ← ttls]
  congr 1
  by_cases hd : r.2.rqDst = d
  · simp [hd]
  · simp [hd]

end World

/-- `sendRequest` for one destination does not matter for the others. -/
theorem Asked.silent {env : Env} {dst d : NsAddr} {w w' : World} (h : Asked env dst w w')
    (hd : d ≠ dst) : w.Silent d w' := by
  cases h with
  | up => exact .refl d w
  | early => exact .refl d w
  | hold he _ _ _ h =>
    have hdst := w.rtDst_of_rtLookup he
    exact (World.silent_store (by rwa [hdst]) w).trans ((deeds_dropBuffered h).silent d)
  | @send e he =>
    have hdst := w.rtDst_of_rtLookup he
    refine ⟨World.asking_congr (World.rtLookup_store_ne (by rwa [RtEntry.requested, hdst])), ?_⟩
    obtain ⟨rq, hrq, -, hrd, -⟩ := World.requests_request env e w
    rw [World.ttls_of_requests hrq, if_neg, List.append_nil]
    rw [hrd, hdst]
    exact Ne.symm hd

/-- For its own destination it is a turn of the machine. -/
theorem Asked.turn {env : Env} {d : NsAddr} {w w' : World} (h : Asked env d w w')
    (hdown : (w.asking d).up = false) {called : Prop} (hc : called) :
    ∃ l, (w.asking d).Turn env.now called (w'.asking d) l ∧ w'.ttls d = w.ttls d ++ l := by
  cases h with
  | up he hup =>
    rw [World.asking_of_some he, RtEntry.asking, decide_eq_false_iff_not] at hdown
    exact absurd hup hdown
  | early he _ ht =>
    refine ⟨[], .rest (.refl _) fun _ => ⟨hdown, ?_⟩, (List.append_nil _).symm⟩
    rw [World.asking_of_some he]
    exact ht
  | @hold e w' he _ ht hcnt h =>
    have hdst := w.rtDst_of_rtLookup he
    have hdeeds := deeds_dropBuffered h
    have hasking : w'.asking d = (w.asking d).held env.now := by
      refine (hdeeds.asking d).trans ?_
      rw [World.asking_of_some he]
      exact World.asking_store_self he rfl
    refine ⟨[], ?_, ?_⟩
    · rw [hasking]
      rw [World.asking_of_some he] at hdown ⊢
      exact .hold hc hdown ht hcnt
    · rw [hdeeds.ttls d, List.append_nil]
      rfl
  | @send e he _ ht hcnt =>
    have hdst := w.rtDst_of_rtLookup he
    obtain ⟨rq, hrq, -, hrd, -⟩ := World.requests_request env e w
    have hasking : (w.request env e).asking d = (w.asking d).sent env.now := by
      rw [World.asking_of_some he, ← RtEntry.asking_requested]
      exact World.asking_store_self he rfl
    refine ⟨[(w.asking d).ttl], ?_, ?_⟩
    · rw [hasking]
      rw [World.asking_of_some he] at hdown ⊢
      exact .send hc hdown ht hcnt
    · rw [World.ttls_of_requests hrq, if_pos (hrd.trans hdst), World.asking_of_some he]

/-! ### `rt_resolve` -/

section Resolve

variable {env : Env} {w w' : World} {inp : Input} {q : AppPacket} {d : NsAddr}

theorem Resolves.unique {i : NsAddr} {q' : AppPacket} (h : Resolves i inp q)
    (h' : Resolves i inp q') : q = q' := by
  obtain ⟨p, rfl, hp⟩ := h
  obtain ⟨p', heq, hp'⟩ := h'
  obtain rfl : p = p' := Subtype.ext (Input.recv.inj heq)
  exact Option.some.inj (hp.symm.trans hp')

theorem Resolves.ne_routeCacheTimer {i : NsAddr} (h : Resolves i inp q) :
    inp ≠ .routeCacheTimer := by
  rintro rfl
  obtain ⟨p, hp, -⟩ := h
  cases hp

/-- What `rt_resolve` has done when it returns. -/
inductive Resolved (env : Env) (q : AppPacket) (w : World) : World → Prop where
  /-- Lines 508–510 and 530–549. -/
  | forward {w' : World} (hn : ∀ e, w.rtLookup q.val.ih.daddr = some e → e.rtFlags ≠ .up →
      q.val.ih.saddr ≠ w.index) (h : w.Deeds (RtEntry.Use env.now) w') : Resolved env q w w'
  /-- Lines 515–517. -/
  | ask {e : RtEntry} {w' : World} (hs : q.val.ih.saddr = w.index)
      (he : w.rtLookup q.val.ih.daddr = some e) (hdown : e.rtFlags ≠ .up)
      (h : Asked env q.val.ih.daddr (w.enque env q) w') : Resolved env q w w'
  /-- Lines 522–523. -/
  | wait (hs : q.val.ih.saddr ≠ w.index) : Resolved env q w (w.enque env q)

theorem rtResolve_resolved (h : rtResolve env q w = .ok w') :
    ∃ v, w.rtEnsure env q.val.ih.daddr = .ok v ∧ Resolved env q v w' := by
  unfold rtResolve at h
  obtain ⟨v, hv, h⟩ := of_bind_ok h
  refine ⟨v, hv, ?_⟩
  split at h
  · cases h
  · next e he =>
    split at h
    · split at h
      · cases h
      · next hup _ =>
        refine .forward (fun f hf hdown => ?_) ((forward_ok h).deeds (noRequest_of_app q.2))
        obtain rfl := Option.some.inj (he.symm.trans hf)
        exact absurd hup hdown
    · next hdown =>
      split at h
      · next hs => exact .ask hs he hdown (sendRequest_asked h)
      · next hs =>
        split at h
        · obtain rfl := Except.ok.inj h
          exact .wait hs
        · split at h
          · cases h
          · obtain ⟨re, -, h⟩ := of_bind_ok h
            obtain rfl := Except.ok.inj h
            have herr : v.Deeds (RtEntry.Use env.now) (sendError env re false v) :=
              .send v (fun _ hb => by cases hb) _
            exact .forward (fun _ _ _ => hs) (herr.trans (.drop _ _ _))

theorem index_rtEnsure {v : World} {d : NsAddr} (h : w.rtEnsure env d = .ok v) :
    v.index = w.index := by
  rw [(World.rtEnsure_ok h).2.1]

/-- A packet for `rt_resolve` is a turn for every destination. -/
theorem turn_rtResolve (hq : Resolves w.index inp q) (h : rtResolve env q w = .ok w')
    (d : NsAddr) :
    ∃ l, (w.asking d).Turn env.now (∃ v, Calls env w inp d v) (w'.asking d) l ∧
      w'.ttls d = w.ttls d ++ l := by
  obtain ⟨v, hv, hres⟩ := rtResolve_resolved h
  have hensure := World.silent_rtEnsure hv d
  by_cases hc : ∃ v, Calls env w inp d v
  · obtain ⟨x, hx⟩ := id hc
    cases hx with
    | purge hin => exact absurd hin hq.ne_routeCacheTimer
    | @resolve q' u e hq' hd hs hu he hdown =>
      obtain rfl := hq.unique hq'
      subst hd
      obtain rfl := Except.ok.inj (hv.symm.trans hu)
      have hall := hensure.trans (v.silent_enque env q q.val.ih.daddr)
      have hfalse : ((v.enque env q).asking q.val.ih.daddr).up = false := by
        rw [(v.silent_enque env q _).asking, World.asking_of_some he]
        exact decide_eq_false hdown
      cases hres with
      | forward hn => exact absurd (hs.trans (index_rtEnsure hv).symm) (hn e he hdown)
      | wait hn => exact absurd (hs.trans (index_rtEnsure hv).symm) hn
      | ask _ _ _ h =>
        obtain ⟨l, hturn, hl⟩ := h.turn hfalse hc
        rw [hall.asking] at hturn
        rw [hall.ttls] at hl
        exact ⟨l, hturn, hl⟩
  · have hsilent : v.Silent d w' := by
      cases hres with
      | forward _ h => exact h.silent d
      | wait => exact v.silent_enque env q d
      | ask hs he hdown h =>
        refine (v.silent_enque env q d).trans (h.silent ?_)
        rintro rfl
        exact hc ⟨_, .resolve hq rfl (hs.trans (index_rtEnsure hv)) hv he hdown⟩
    have hall := hensure.trans hsilent
    refine ⟨[], ?_, by rw [hall.ttls, List.append_nil]⟩
    rw [hall.asking]
    exact .rest (.refl _) fun h => absurd h hc

end Resolve

/-! ### `rt_purge` -/

section Purge

variable {env : Env} {w w' : World} {s s' : World × Time} {d : NsAddr}

/-- What the turn of `rt_purge` at an entry has done. -/
inductive PurgedEntry (env : Env) (dst : NsAddr) (s s' : World × Time) : Prop where
  /-- Lines 563–577: paths may have expired, and packets for the destination with them. -/
  | expire {e : RtEntry} {v : World} (he : s.1.rtLookup dst = some e) (hup : e.rtFlags = .up)
      (hv : s.1.Deeds (RtEntry.Use env.now) v) {e' : RtEntry} (hl : e.Loss env.now e')
      (h : s'.1 = v.store e') : PurgedEntry env dst s s'
  /-- Lines 578–589. -/
  | forward {e : RtEntry} (he : s.1.rtLookup dst = some e) (hup : e.rtFlags = .up)
      (h : s.1.Deeds (RtEntry.Use env.now) s'.1) : PurgedEntry env dst s s'
  /-- Lines 590–598. -/
  | ask {e : RtEntry} (he : s.1.rtLookup dst = some e) (hdown : e.rtFlags ≠ .up)
      (hf : s.1.rqueue.find dst = true) (h : Asked env dst s.1 s'.1) : PurgedEntry env dst s s'
  | pass (hn : ∀ e, s.1.rtLookup dst = some e → e.rtFlags ≠ .up →
      s.1.rqueue.find dst = false) (h : s' = s) : PurgedEntry env dst s s'

theorem rtPurgeEntry_ok {dst : NsAddr} (h : rtPurgeEntry env s dst = .ok s') :
    PurgedEntry env dst s s' := by
  unfold rtPurgeEntry at h
  split at h
  · next hnone =>
    exact .pass (fun e he => by cases hnone.symm.trans he) (Except.ok.inj h).symm
  · next e he =>
    split at h
    · next hc =>
      obtain ⟨b, -, h⟩ := of_bind_ok h
      have hpurge : e.Loss env.now (e.pathPurge env.now) := .pathPurge env.now e
      split at h
      · obtain ⟨v, hv, h⟩ := of_bind_ok h
        obtain rfl := Except.ok.inj h
        have hloss : e.Loss env.now ((e.pathPurge env.now).expired env.inf) :=
          (hpurge.setSeqno _ _ _).trans (.rtDown env.inf _)
        exact .expire he hc.1 (deeds_dropBuffered hv) hloss rfl
      · obtain rfl := Except.ok.inj h
        exact .expire he hc.1 (.refl s.1) hpurge rfl
    · split at h
      · next hup =>
        split at h
        · cases h
        · refine .forward he hup (deeds_whileForward (fun q x x' hb => ?_) h)
          obtain ⟨y, hy, hb⟩ := of_bind_ok hb
          obtain rfl := Except.ok.inj hb
          exact .inr (forward_ok hy)
      · next hdown =>
        split at h
        · next hf =>
          obtain ⟨v, hv, h⟩ := of_bind_ok h
          obtain rfl := Except.ok.inj h
          exact .ask he hdown hf (sendRequest_asked hv)
        · next hf =>
          exact .pass (fun _ _ _ => Bool.eq_false_of_not_eq_true hf) (Except.ok.inj h).symm

/-- The turn at another entry does not matter. -/
theorem PurgedEntry.silent {dst : NsAddr} (h : PurgedEntry env dst s s') (hd : d ≠ dst) :
    s.1.Silent d s'.1 := by
  cases h with
  | @expire e v he _ hv e' hl h =>
    have hdst := hl.rtDst.trans (s.1.rtDst_of_rtLookup he)
    rw [h]
    exact (hv.silent d).trans (World.silent_store (by rwa [hdst]) v)
  | forward _ _ h => exact h.silent d
  | ask _ _ _ h => exact h.silent hd
  | pass _ h =>
    rw [h]
    exact .refl d s.1

/-- Turns at other entries do not matter. -/
theorem silent_turns {l : List NsAddr} (hd : d ∉ l)
    (h : l.foldlM (rtPurgeEntry env) s = .ok s') : s.1.Silent d s'.1 := by
  refine foldlM_ok (J := fun x => s.1.Silent d x.1) (fun x a ha x' hx hs => ?_) (.refl d s.1) h
  refine hx.trans ((rtPurgeEntry_ok hs).silent ?_)
  rintro rfl
  exact hd ha

/-- The turn at the entry itself. -/
theorem PurgedEntry.turn (h : PurgedEntry env d s s') {called : Prop}
    (hc : called ↔ ∃ e, s.1.rtLookup d = some e ∧ e.rtFlags ≠ .up ∧
      s.1.rqueue.find d = true) :
    ∃ l, (s.1.asking d).Turn env.now called (s'.1.asking d) l ∧
      s'.1.ttls d = s.1.ttls d ++ l := by
  have hnot : ∀ {e}, s.1.rtLookup d = some e → e.rtFlags = .up → ¬ called := by
    intro e he hup hcall
    obtain ⟨f, hf, hdown, -⟩ := hc.mp hcall
    obtain rfl := Option.some.inj (he.symm.trans hf)
    exact hdown hup
  cases h with
  | @expire e v he hup hv e' hl h =>
    have hdst := s.1.rtDst_of_rtLookup he
    obtain ⟨f, hf, hu⟩ := hv.entry d e he
    have hasking : s'.1.asking d = e'.asking := by
      rw [h]
      exact World.asking_store_self hf (hl.rtDst.trans hu.rtDst.symm)
    refine ⟨[], .rest ?_ fun hcall => absurd hcall (hnot he hup), ?_⟩
    · rw [hasking, World.asking_of_some he]
      exact hl.rests
    · rw [h, List.append_nil]
      exact hv.ttls d
  | forward he hup h =>
    refine ⟨[], .rest ?_ fun hcall => absurd hcall (hnot he hup), ?_⟩
    · rw [h.asking d]
      exact .refl _
    · rw [h.ttls d, List.append_nil]
  | ask he hdown hf h =>
    refine h.turn ?_ (hc.mpr ⟨_, he, hdown, hf⟩)
    rw [World.asking_of_some he]
    exact decide_eq_false hdown
  | pass hn h =>
    subst h
    refine ⟨[], .rest (.refl _) fun hcall => ?_, (List.append_nil _).symm⟩
    obtain ⟨e, he, hdown, hf⟩ := hc.mp hcall
    rw [hn e he hdown] at hf
    cases hf

/-- `rt_purge` is a turn for every destination. -/
theorem turn_rtPurge (hnd : (w.rtable.map RtEntry.rtDst).Nodup) (h : rtPurge env w = .ok w')
    (d : NsAddr) :
    ∃ l, (w.asking d).Turn env.now (∃ v, Calls env w .routeCacheTimer d v) (w'.asking d) l ∧
      w'.ttls d = w.ttls d ++ l := by
  unfold rtPurge at h
  obtain ⟨⟨v, delay⟩, hv, h⟩ := of_bind_ok h
  obtain rfl := Except.ok.inj h
  by_cases hmem : d ∈ w.rtable.map RtEntry.rtDst
  · obtain ⟨u, u', hl⟩ := List.append_of_mem hmem
    have hnd' := hl ▸ hnd
    obtain ⟨-, hright, hdisj⟩ := List.nodup_append.mp hnd'
    have hu : d ∉ u := fun hc => hdisj d hc d List.mem_cons_self rfl
    have hu' : d ∉ u' := (List.nodup_cons.mp hright).1
    rw [hl, List.foldlM_append] at hv
    obtain ⟨x, hx, hv⟩ := of_bind_ok hv
    rw [List.foldlM_cons] at hv
    obtain ⟨y, hy, hv⟩ := of_bind_ok hv
    have hcall : (∃ v, Calls env w .routeCacheTimer d v) ↔
        ∃ e, x.1.rtLookup d = some e ∧ e.rtFlags ≠ .up ∧ x.1.rqueue.find d = true := by
      constructor
      · rintro ⟨_, hc⟩
        cases hc with
        | resolve hq => exact absurd rfl hq.ne_routeCacheTimer
        | @purge s e _ hs he hdown hf =>
          obtain rfl := hs.unique ⟨u, u', hl, hx⟩ hnd
          exact ⟨e, he, hdown, hf⟩
      · rintro ⟨e, he, hdown, hf⟩
        exact ⟨x.1, .purge rfl ⟨u, u', hl, hx⟩ he hdown hf⟩
    obtain ⟨l, hturn, hls⟩ := (rtPurgeEntry_ok hy).turn hcall
    have hbefore := silent_turns hu hx
    have hafter := silent_turns hu' hv
    refine ⟨l, ?_, ?_⟩
    · rw [hafter.asking, ← hbefore.asking]
      exact hturn
    · rw [hafter.ttls, hls, hbefore.ttls]
  · have hsilent := silent_turns hmem hv
    refine ⟨[], ?_, by rw [hsilent.ttls, List.append_nil]⟩
    rw [hsilent.asking]
    refine .rest (.refl _) ?_
    rintro ⟨_, hc⟩
    cases hc with
    | resolve hq => exact absurd rfl hq.ne_routeCacheTimer
    | purge _ hs =>
      obtain ⟨u, u', hl, -⟩ := hs
      exact absurd (hl ▸ List.mem_append_right u List.mem_cons_self) hmem

end Purge

/-! ### Advertisements -/

section Adverts

variable {env : Env} {w w' u : World} {A : Advert} {d : NsAddr}

theorem RtEntry.rtLastHopCount_learn (env : Env) (a : Agent) (A : Advert) (e : RtEntry) :
    (e.learn env a A).rtLastHopCount = e.rtLastHopCount ∨
      0 ≤ (e.learn env a A).rtLastHopCount := by
  unfold learn
  split
  · exact .inr (Int.natCast_nonneg _)
  · split
    · exact .inr (Int.natCast_nonneg _)
    · split
      · exact .inl rfl
      · exact .inl rfl

/-- An advertisement writes nothing else that `sendRequest` reads. -/
theorem RtEntry.asking_learn (env : Env) (a : Agent) (A : Advert) (e : RtEntry) :
    (e.learn env a A).asking = { e.asking with
      up := decide ((e.learn env a A).rtFlags = .up)
      lastHops := (e.learn env a A).rtLastHopCount } := by
  unfold learn
  split_ifs <;> rfl

theorem World.asking_entryFor (env : Env) (w : World) (d : NsAddr) :
    w.asking d = (w.entryFor env d).asking := by
  rw [World.asking, World.entryFor]
  cases w.rtLookup d with
  | none => exact (asking_fresh d (env.rtHops d)).symm
  | some e => rfl

theorem World.Updated.ttls (h : World.Updated env A w u) (d : NsAddr) : u.ttls d = w.ttls d := by
  rw [World.ttls, World.requests, World.sent, h.out, h.index]
  rfl

/-- An advertisement leaves a route alone, or finds it. -/
theorem turn_advised (h : Advised env A w w') (d : NsAddr) :
    ((w.asking d).Rests (w'.asking d) ∨ (w.asking d).Found (w'.asking d)) ∧
      w'.ttls d = w.ttls d := by
  obtain ⟨u, hu, hrest⟩ := h
  have hother : d ≠ A.dst → u.asking d = w.asking d := fun hd => World.asking_congr (hu.other d hd)
  have hlearn := RtEntry.rtLastHopCount_learn env w.toAgent A (w.entryFor env A.dst)
  have hself := World.asking_of_some hu.self
  rw [RtEntry.asking_learn, ← World.asking_entryFor] at hself
  rcases hrest with ⟨rfl, hold, hsame⟩ | ⟨e, x, he, hup, hx, hw'⟩
  · refine ⟨.inl ?_, hu.ttls d⟩
    by_cases hd : d = A.dst
    · subst hd
      by_cases hup : (w.entryFor env A.dst).rtFlags = .up
      · have hflag : ((w.entryFor env A.dst).learn env w.toAgent A).rtFlags = .up :=
          (RtEntry.rtFlags_learn hold).trans hup
        rw [hself, decide_eq_true hflag]
        refine ⟨rfl, rfl, rfl, fun _ => ?_, hlearn.imp (fun h => ?_) fun h => ⟨rfl, h⟩, rfl⟩
        · rw [World.asking_entryFor env]
          exact decide_eq_true hup
        · rw [World.asking_entryFor env]
          exact h
      · rw [World.asking_of_some (hsame hup), ← World.asking_entryFor]
        exact .refl _
    · rw [hother hd]
      exact .refl _
  · have hall := (deeds_routeUp he hup hx).trans hw'
    have hdst := u.rtDst_of_rtLookup he
    constructor
    · by_cases hd : d = A.dst
      · subst hd
        refine .inr ?_
        have hfound : w'.asking A.dst = e.resetSoftState.asking :=
          (hall.asking A.dst).trans (World.asking_store_self he rfl)
        obtain rfl := Option.some.inj (he.symm.trans hu.self)
        rw [hfound, World.asking_entryFor env]
        have hperHop := congrArg Asking.perHop
          (RtEntry.asking_learn env w.toAgent A (w.entryFor env A.dst))
        exact ⟨decide_eq_true hup, rfl, rfl, rfl, hlearn, hperHop⟩
      · left
        have hne : d ≠ e.resetSoftState.rtDst := fun hc => hd (hc.trans hdst)
        rw [hall.asking d, (World.silent_store hne u).asking, hother hd]
        exact .refl _
    · rw [hall.ttls d]
      exact hu.ttls d

/-- Every event is a turn of the request machine of every destination. -/
theorem turn_of_handle {inp : Input} (hnd : (w.rtable.map RtEntry.rtDst).Nodup)
    (h : handle env inp w = .ok w') (d : NsAddr) :
    ∃ l, (w.asking d).Turn env.now (∃ v, Calls env w inp d v) (w'.asking d) l ∧
      w'.ttls d = w.ttls d ++ l := by
  cases handle_happens h with
  | @hears A hA =>
    have hnot : ¬ ∃ v, Calls env w inp d v := by
      rintro ⟨v, hv⟩
      rcases hv.input with ⟨q, hq⟩ | rfl
      · exact hA.not_resolves hq
      · obtain ⟨q, hq, -⟩ := hA
        cases hq
    obtain ⟨hown, hother⟩ := handle_advised h hA
    by_cases hd : A.dst = w.index
    · refine ⟨[], .rest ?_ fun hc => absurd hc hnot, ?_⟩
      · rw [(hown hd).asking d]
        exact .refl _
      · rw [(hown hd).ttls d, List.append_nil]
    · obtain ⟨hturn, hl⟩ := turn_advised (hother hd) d
      refine ⟨[], ?_, by rw [hl, List.append_nil]⟩
      rcases hturn with hr | hf
      · exact .rest hr fun hc => absurd hc hnot
      · exact .found hf hnot
  | resolve hq hr => exact turn_rtResolve hq hr d
  | purge hin hr =>
    subst hin
    exact turn_rtPurge hnd hr d
  | loss hA hq hin hl =>
    refine ⟨[], .rest (hl.rests d) ?_, by rw [hl.ttls d, List.append_nil]⟩
    rintro ⟨v, hv⟩
    rcases hv.input with ⟨q, hq'⟩ | hin'
    · exact absurd hq' (hq q)
    · exact absurd hin' hin

end Adverts

end Eamrp
