import Eamrp.Abs.Calm
import Eamrp.Agent.Cache
import Eamrp.Agent.PathList

/-!
# The route-update stages

`recvRequest` and `recvReply` write the same update of an entry in two ways. `learn` says once
what it is, and the event of hearing an advertisement is this update and what follows it.
-/

namespace Eamrp

open Lib

namespace RtEntry

/-- The advertisement offers a disjoint alternate path, and the entry takes it. -/
def Admits (a : Agent) (A : Advert) (e : RtEntry) : Prop :=
  e.rtSeqno = A.seqno ∧ A.hops.toUInt16 < e.rtAdvertisedHops ∧
    e.newDisjointPath A.via A.first = true ∧ e.rtNumPaths < a.eamrpMaxPaths ∧
    hopSpread A.hops e ≤ a.eamrpPrimAltPathLenDiff

instance (a : Agent) (A : Advert) (e : RtEntry) : Decidable (e.Admits a A) :=
  inferInstanceAs (Decidable (_ ∧ _))

/-- What an advertisement for its destination makes of an entry. -/
def learn (env : Env) (a : Agent) (A : Advert) (e : RtEntry) : RtEntry :=
  if e.rtSeqno < A.seqno then
    e.renew env.inf A.seqno A.via A.hopcount (env.now + A.life) A.first
  else if e.Admits a A then e.addPath A.via A.hopcount (env.now + A.life) A.first
  else if e.rtSeqno = A.seqno ∧ A.hops.toUInt16 < e.rtAdvertisedHops then
    e.refreshPath A.via A.first (env.now + A.life)
  else e

/-- Without such a path there is nothing to prolong. -/
theorem raiseExpire_of_none {x y : NsAddr} {t : Time} {l : List Path}
    (h : l.find? (fun p => p.nexthop == x && p.lasthop == y) = none) :
    raiseExpire x y t l = l := by
  induction l with
  | nil => rfl
  | cons p l ih =>
    rw [List.find?_cons] at h
    split at h
    · cases h
    · next hp =>
      rw [raiseExpire, hp, ih h]
      rfl

theorem refreshPath_of_none {e : RtEntry} {x y : NsAddr} {t : Time}
    (h : e.disjointPathLookup x y = none) : e.refreshPath x y t = e := by
  rw [refreshPath, raiseExpire_of_none h]

/-- A path that is there is not disjoint from itself. -/
theorem newDisjointPath_of_some {e : RtEntry} {x y : NsAddr} {p : Path}
    (h : e.disjointPathLookup x y = some p) : e.newDisjointPath x y = false := by
  have hp := List.mem_of_find?_eq_some h
  have hx : (p.nexthop == x && p.lasthop == y) = true :=
    List.find?_some (p := fun p : Path => p.nexthop == x && p.lasthop == y) h
  rw [Bool.and_eq_true] at hx
  apply Bool.eq_false_iff.mpr
  intro hn
  have := List.all_eq_true.mp hn p hp
  simp [hx.1] at this

/-- Under the same number, below the advertised hop count and with no path of its own, an
advertisement inserts its path or leaves the entry alone. -/
theorem learn_of_none {env : Env} {a : Agent} {A : Advert} {e : RtEntry}
    (hs : e.rtSeqno = A.seqno) (hp : e.disjointPathLookup A.via A.first = none) :
    e.learn env a A = if e.Admits a A then e.addPath A.via A.hopcount (env.now + A.life) A.first
      else e := by
  unfold learn
  rw [if_neg (by rw [hs]; exact UInt32.lt_irrefl _), refreshPath_of_none hp, ite_self]

theorem learn_of_some {env : Env} {a : Agent} {A : Advert} {e : RtEntry} {p : Path}
    (hs : e.rtSeqno = A.seqno) (hh : A.hops.toUInt16 < e.rtAdvertisedHops)
    (hp : e.disjointPathLookup A.via A.first = some p) :
    e.learn env a A = e.refreshPath A.via A.first (env.now + A.life) := by
  unfold learn
  have hn : ¬ e.Admits a A := by
    rintro ⟨-, -, hn, -⟩
    rw [newDisjointPath_of_some hp] at hn
    cases hn
  rw [if_neg (by rw [hs]; exact UInt32.lt_irrefl _), if_neg hn, if_pos ⟨hs, hh⟩]

theorem learn_of_old {env : Env} {a : Agent} {A : Advert} {e : RtEntry}
    (hlt : ¬ e.rtSeqno < A.seqno)
    (hs : ¬ (e.rtSeqno = A.seqno ∧ A.hops.toUInt16 < e.rtAdvertisedHops)) :
    e.learn env a A = e := by
  unfold learn
  rw [if_neg hlt, if_neg (fun h => hs ⟨h.1, h.2.1⟩), if_neg hs]

/-- Only the limits of the agent matter. -/
theorem learn_congr {env : Env} {a b : Agent} {A : Advert} {e : RtEntry}
    (hm : b.eamrpMaxPaths = a.eamrpMaxPaths)
    (hd : b.eamrpPrimAltPathLenDiff = a.eamrpPrimAltPathLenDiff) :
    e.learn env b A = e.learn env a A := by
  have hadm : e.Admits b A ↔ e.Admits a A := by simp only [Admits, hm, hd]
  simp only [learn, hadm]

@[simp] theorem rtDst_learn (env : Env) (a : Agent) (A : Advert) (e : RtEntry) :
    (e.learn env a A).rtDst = e.rtDst := by
  unfold learn
  split_ifs <;> rfl

/-- Unless it brings a newer number, an advertisement changes neither flag nor number. -/
theorem rtFlags_learn {env : Env} {a : Agent} {A : Advert} {e : RtEntry}
    (h : ¬ e.rtSeqno < A.seqno) : (e.learn env a A).rtFlags = e.rtFlags := by
  unfold learn
  rw [if_neg h]
  split_ifs <;> rfl

end RtEntry

section Stages

variable {env : Env} {a : Agent} {e e' : RtEntry} {verdict : Verdict}

theorem learn_of_forwardRoute {rp : HdrReply} (h : forwardRoute env a rp e = .ok (e', verdict)) :
    e' = e.learn env a ⟨rp.rpDst, rp.rpDstSeqno, rp.rpHopCount, rp.rpSrc, rp.rpFirstHop,
      rp.rpLifetime⟩ ∧ (verdict = .discard → ¬ e.rtSeqno < rp.rpDstSeqno) := by
  unfold forwardRoute at h
  dsimp only at h
  split at h
  · next hlt =>
    obtain ⟨rfl, rfl⟩ := Prod.mk.inj (Except.ok.inj h)
    refine ⟨?_, fun hd => by cases hd⟩
    rw [RtEntry.learn, if_pos hlt]
    rfl
  · next hlt =>
    refine ⟨?_, fun _ => hlt⟩
    split at h
    · next hs =>
      split at h
      · cases h
      · split at h
        · next hp =>
          split at h
          · cases h
          · obtain ⟨rfl, rfl⟩ := Prod.mk.inj (Except.ok.inj h)
            exact (RtEntry.learn_of_some (A := ⟨_, _, _, _, _, _⟩) hs.1 hs.2 hp).symm
        · next hp =>
          rw [RtEntry.learn_of_none hs.1 hp]
          split at h
          · next hn =>
            obtain ⟨rfl, rfl⟩ := Prod.mk.inj (Except.ok.inj h)
            rw [if_pos ⟨hs.1, hs.2, hn⟩]
            rfl
          · next hn =>
            obtain ⟨rfl, rfl⟩ := Prod.mk.inj (Except.ok.inj h)
            rw [if_neg fun ha => hn ha.2.2]
    · next hs =>
      obtain ⟨rfl, rfl⟩ := Prod.mk.inj (Except.ok.inj h)
      exact (RtEntry.learn_of_old hlt hs).symm

theorem learn_of_reverseRoute {saddr : NsAddr} {rq : HdrRequest}
    (h : reverseRoute env a saddr rq e = .ok (e', verdict)) :
    e' = e.learn env a ⟨rq.rqSrc, rq.rqSrcSeqno, rq.rqHopCount, saddr, rq.rqFirstHop,
      revRouteLife⟩ ∧ (verdict = .discard → ¬ e.rtSeqno < rq.rqSrcSeqno) := by
  unfold reverseRoute at h
  dsimp only at h
  split at h
  · next hlt =>
    obtain ⟨rfl, rfl⟩ := Prod.mk.inj (Except.ok.inj h)
    refine ⟨?_, fun hd => by cases hd⟩
    rw [RtEntry.learn, if_pos hlt]
    rfl
  · next hlt =>
    refine ⟨?_, fun _ => hlt⟩
    split at h
    · next hs =>
      split at h
      · cases h
      · split at h
        · next hp =>
          split at h
          · cases h
          · obtain ⟨rfl, rfl⟩ := Prod.mk.inj (Except.ok.inj h)
            exact (RtEntry.learn_of_some (A := ⟨_, _, _, _, _, _⟩) hs.1 hs.2 hp).symm
        · next hp =>
          rw [RtEntry.learn_of_none hs.1 hp]
          split at h
          · next hn =>
            by_cases hi : e.rtNumPaths < a.eamrpMaxPaths ∧
                hopSpread rq.rqHopCount e ≤ a.eamrpPrimAltPathLenDiff
            · rw [if_pos ⟨hs.1, hs.2, hn, hi⟩]
              simp only [hi, and_self, decide_true, if_true] at h
              split at h <;> obtain ⟨rfl, -⟩ := Prod.mk.inj (Except.ok.inj h) <;> rfl
            · rw [if_neg fun ha => hi ha.2.2.2]
              simp only [hi, decide_false, Bool.false_eq_true, if_false] at h
              split at h <;> obtain ⟨rfl, -⟩ := Prod.mk.inj (Except.ok.inj h) <;> rfl
          · next hn =>
            have hnot : ¬ e.Admits a ⟨rq.rqSrc, rq.rqSrcSeqno, rq.rqHopCount, saddr,
                rq.rqFirstHop, revRouteLife⟩ := fun ha => hn ha.2.2.1
            rw [if_neg hnot]
            split at h <;> split at h <;> exact (Prod.mk.inj (Except.ok.inj h)).1.symm
    · next hs =>
      obtain ⟨rfl, rfl⟩ := Prod.mk.inj (Except.ok.inj h)
      exact (RtEntry.learn_of_old hlt hs).symm

/-- A RREQ that is kept has found or made a route that is up. -/
theorem up_of_reverseRoute {saddr : NsAddr} {rq : HdrRequest} {b : Bool}
    (h : reverseRoute env a saddr rq e = .ok (e', .keep b)) : e'.rtFlags = .up := by
  obtain ⟨rfl, -⟩ := learn_of_reverseRoute h
  by_cases hlt : e.rtSeqno < rq.rqSrcSeqno
  · rw [RtEntry.learn, if_pos hlt]
    rfl
  · rw [RtEntry.rtFlags_learn hlt]
    unfold reverseRoute at h
    dsimp only at h
    rw [if_neg hlt] at h
    split at h
    · split at h
      · cases h
      · next hup => exact not_not.mp hup
    · cases (Prod.mk.inj (Except.ok.inj h)).2

/-- A RREQ that is discarded leaves a route alone that is not up. -/
theorem eq_of_reverseRoute {saddr : NsAddr} {rq : HdrRequest}
    (h : reverseRoute env a saddr rq e = .ok (e', .discard)) (hup : e.rtFlags ≠ .up) :
    e' = e := by
  unfold reverseRoute at h
  dsimp only at h
  split at h
  · cases (Prod.mk.inj (Except.ok.inj h)).2
  · split at h
    · cases h
    · exact (Prod.mk.inj (Except.ok.inj h)).1.symm

theorem eq_of_forwardRoute {rp : HdrReply}
    (h : forwardRoute env a rp e = .ok (e', .discard)) (hup : e.rtFlags ≠ .up) : e' = e := by
  unfold forwardRoute at h
  dsimp only at h
  split at h
  · cases (Prod.mk.inj (Except.ok.inj h)).2
  · split at h
    · cases h
    · exact (Prod.mk.inj (Except.ok.inj h)).1.symm

theorem up_of_forwardRoute {rp : HdrReply} {b : Bool}
    (h : forwardRoute env a rp e = .ok (e', .keep b)) : e'.rtFlags = .up := by
  obtain ⟨rfl, -⟩ := learn_of_forwardRoute h
  by_cases hlt : e.rtSeqno < rp.rpDstSeqno
  · rw [RtEntry.learn, if_pos hlt]
    rfl
  · rw [RtEntry.rtFlags_learn hlt]
    unfold forwardRoute at h
    dsimp only at h
    rw [if_neg hlt] at h
    split at h
    · split at h
      · cases h
      · next hup => exact not_not.mp hup
    · cases (Prod.mk.inj (Except.ok.inj h)).2

end Stages

namespace Agent

/-- A RREQ and a RREP that tell node `a` the same about destination `d`, number `n`, hop count
`h`, sender `x` and first hop update an entry in the same way, or both fail an assert. The
life of the RREP is that of a reverse route, and the first hop that of the RREQ at this node.
What becomes of the packets themselves may differ. -/
theorem reverse_forward_agree (env : Env) (a : Agent) (e : RtEntry) (d : NsAddr) (n : UInt32)
    (h : UInt8) (x : NsAddr) (rq : HdrRequest) (rp : HdrReply) :
    (reverseRoute env a x ({ rq with rqSrc := d, rqSrcSeqno := n, rqHopCount := h }.atNode
        a.index) e).toOption.map Prod.fst =
      (forwardRoute env a
        { rp with
          rpDst := d, rpDstSeqno := n, rpHopCount := h, rpSrc := x
          rpFirstHop := if h = 0 then a.index else rq.rqFirstHop
          rpLifetime := revRouteLife } e).toOption.map Prod.fst := by
  simp only [HdrRequest.atNode]
  generalize (if h = 0 then a.index else rq.rqFirstHop) = f
  unfold reverseRoute forwardRoute
  dsimp only
  split
  · rfl
  · split
    · split
      · rfl
      · split
        · split
          · rfl
          · rfl
        · next hnone =>
          -- Here the two handlers nest the tests for disjointness, room and length differently.
          by_cases hn : e.newDisjointPath x f = true
          · by_cases hi : e.rtNumPaths < a.eamrpMaxPaths ∧
                hopSpread h e ≤ a.eamrpPrimAltPathLenDiff
            · simp only [hn, hi, and_self, decide_true, if_true]
              split <;> rfl
            · simp only [hn, hi, and_false, decide_false, Bool.false_eq_true, if_true, if_false]
              split <;> rfl
          · simp only [hn, Bool.false_eq_true, false_and, if_false]
            split <;> rfl
    · rfl

end Agent

/-! ### Hearing an advertisement -/

namespace World

/-- The entry that the route update finds: a fresh one if there was none. -/
def entryFor (env : Env) (w : World) (d : NsAddr) : RtEntry :=
  (w.rtLookup d).getD { rtDst := d, rtHops := env.rtHops d }

/-- The agent right after the route update. -/
structure Learned (env : Env) (A : Advert) (w u : World) : Prop where
  index : u.index = w.index
  eamrpMaxPaths : u.eamrpMaxPaths = w.eamrpMaxPaths
  eamrpPrimAltPathLenDiff : u.eamrpPrimAltPathLenDiff = w.eamrpPrimAltPathLenDiff
  rqueue : u.rqueue = w.rqueue
  self : u.rtLookup A.dst = some ((w.entryFor env A.dst).learn env w.toAgent A)
  other : ∀ d, d ≠ A.dst → u.rtLookup d = w.rtLookup d

/-- Nothing has been sent on the way, and the own number is the same. -/
structure Updated (env : Env) (A : Advert) (w u : World) : Prop extends Learned env A w u where
  seqno : u.seqno = w.seqno
  seqnoWrapped : u.seqnoWrapped = w.seqnoWrapped
  out : u.out = w.out

/-- Only neighbour and broadcast-id caches differ. -/
theorem Updated.congr {env : Env} {A : Advert} {w v u : World} (h : Updated env A v u)
    (hv : v = { w with nbhead := v.nbhead, bihead := v.bihead }) : Updated env A w u := by
  have hl : ∀ d, v.rtLookup d = w.rtLookup d := fun d => by rw [hv]; rfl
  have hm : v.eamrpMaxPaths = w.eamrpMaxPaths := by rw [hv]
  have hd : v.eamrpPrimAltPathLenDiff = w.eamrpPrimAltPathLenDiff := by rw [hv]
  constructor
  · refine ⟨by rw [h.index, hv], h.eamrpMaxPaths.trans hm, h.eamrpPrimAltPathLenDiff.trans hd,
      by rw [h.rqueue, hv], ?_, fun d hne => (h.other d hne).trans (hl d)⟩
    rw [h.self, RtEntry.learn_congr hm hd, entryFor, entryFor, hl]
  · rw [h.seqno, hv]
  · rw [h.seqnoWrapped, hv]
  · rw [h.out, hv]

theorem rtEnsure_ok {env : Env} {d : NsAddr} {w v : World} (h : w.rtEnsure env d = .ok v) :
    v.rtLookup d = some (w.entryFor env d) ∧
      v = { w with rtable := v.rtable } ∧ ∀ d', d' ≠ d → v.rtLookup d' = w.rtLookup d' := by
  unfold rtEnsure at h
  split at h
  · next e he =>
    obtain rfl := Except.ok.inj h
    exact ⟨by rw [entryFor, he, Option.getD_some], rfl, fun _ _ => rfl⟩
  · next hnone =>
    have hadd : w.rtAdd env d =
        .ok { w with rtable := { rtDst := d, rtHops := env.rtHops d } :: w.rtable } := by
      have hnone' : w.rtable.rtLookup d = none := hnone
      simp [rtAdd, RTable.rtAdd, hnone']
    rw [hadd] at h
    obtain rfl := Except.ok.inj h
    refine ⟨?_, rfl, fun d' hd' => ?_⟩
    · change RTable.rtLookup (_ :: _) d = _
      rw [RTable.rtLookup_cons, if_pos rfl, entryFor, hnone, Option.getD_none]
    · change RTable.rtLookup (_ :: _) d' = _
      rw [RTable.rtLookup_cons, if_neg (Ne.symm hd')]
      rfl

/-- An entry that is found after a missing one was added is in repair only if it was before. -/
theorem rtEnsure_not_inRepair {env : Env} {d : NsAddr} {w v : World} {e : RtEntry}
    (hrepair : ∀ d e, w.rtLookup d = some e → e.rtFlags ≠ .inRepair)
    (hv : w.rtEnsure env d = .ok v) (he : v.rtLookup d = some e) : e.rtFlags ≠ .inRepair := by
  obtain rfl := Option.some.inj (he.symm.trans (rtEnsure_ok hv).1)
  unfold entryFor
  cases hl : w.rtLookup d with
  | none => exact fun hc => by cases hc
  | some f => exact hrepair d f hl

/-- Remembering a request touches neither the route to its source nor the node's settings. -/
theorem rtEnsure_remember {env : Env} {rq : HdrRequest} {w v : World} {e : RtEntry}
    (hv : (w.remember env rq).rtEnsure env rq.rqSrc = .ok v)
    (he : v.rtLookup rq.rqSrc = some e) :
    e = w.entryFor env rq.rqSrc ∧ v.index = w.index ∧ v.eamrpMaxPaths = w.eamrpMaxPaths ∧
      v.eamrpPrimAltPathLenDiff = w.eamrpPrimAltPathLenDiff := by
  obtain ⟨hself, heq, -⟩ := rtEnsure_ok hv
  obtain rfl := Option.some.inj (he.symm.trans hself)
  rw [heq, remember_eq]
  exact ⟨rfl, rfl, rfl, rfl⟩

/-- Looking up the entry, or adding it, and writing what the advertisement makes of it. -/
theorem updated_store {env : Env} {A : Advert} {w v : World} {e e' : RtEntry}
    (hv : w.rtEnsure env A.dst = .ok v) (he : v.rtLookup A.dst = some e)
    (hlearn : e' = e.learn env v.toAgent A) : Updated env A w (v.store e') := by
  obtain ⟨hself, heq, hother⟩ := rtEnsure_ok hv
  obtain rfl := Option.some.inj (he.symm.trans hself)
  have hd : e'.rtDst = A.dst := by
    rw [hlearn, RtEntry.rtDst_learn]
    exact v.rtDst_of_rtLookup he
  have hagent : (w.entryFor env A.dst).learn env v.toAgent A =
      (w.entryFor env A.dst).learn env w.toAgent A :=
    RtEntry.learn_congr (by rw [heq]) (by rw [heq])
  refine ⟨⟨by rw [heq]; rfl, by rw [heq]; rfl, by rw [heq]; rfl, by rw [heq]; rfl, ?_, ?_⟩,
    by rw [heq]; rfl, by rw [heq]; rfl, by rw [heq]; rfl⟩
  · rw [rtLookup_store_self he hd, hlearn, hagent]
  · intro d hne
    rw [rtLookup_store_ne (by rwa [hd])]
    exact hother d hne

end World

section Events

variable {env : Env} {w w' : World} {A : Advert}

/-- The event of hearing an advertisement: the route update, and unless the packet is
discarded, the flush of the buffer for an updated route and then calm changes. -/
def HearsAdvert (env : Env) (A : Advert) (w w' : World) : Prop :=
  ∃ u, World.Learned env A w u ∧ (w' = u ∧ ¬ (w.entryFor env A.dst).rtSeqno < A.seqno ∨
    ∃ x, routeUp env A.dst u = .ok x ∧ x.Calm w')

/-- The same event with all that it leaves alone. If the packet is discarded, the route has not
been renewed, and one that is not up is as it was; if not, the route is up. -/
def Advised (env : Env) (A : Advert) (w w' : World) : Prop :=
  ∃ u, World.Updated env A w u ∧
    (w' = u ∧ ¬ (w.entryFor env A.dst).rtSeqno < A.seqno ∧
        ((w.entryFor env A.dst).rtFlags ≠ .up →
          u.rtLookup A.dst = some (w.entryFor env A.dst)) ∨
      ∃ e x, u.rtLookup A.dst = some e ∧ e.rtFlags = .up ∧ routeUp env A.dst u = .ok x ∧
        x.Deeds (RtEntry.Use env.now) w')

theorem Advised.hears (h : Advised env A w w') : HearsAdvert env A w w' := by
  obtain ⟨u, hu, hrest⟩ := h
  refine ⟨u, hu.toLearned, ?_⟩
  rcases hrest with ⟨rfl, hold, -⟩ | ⟨e, x, -, -, hup, hx⟩
  · exact .inl ⟨rfl, hold⟩
  · exact .inr ⟨x, hup, hx.calm⟩

/-- What follows the route update in the event at most uses the paths of an entry. -/
theorem Advised.used (h : Advised env A w w') : ∃ u, World.Updated env A w u ∧
    ∀ d e, u.rtLookup d = some e → ∃ e', w'.rtLookup d = some e' ∧
      e'.pathsDeleted = e.pathsDeleted ∧
      List.Forall₂ (Path.Kept env.now) e.rtPathList e'.rtPathList := by
  obtain ⟨u, hu, hrest⟩ := h
  refine ⟨u, hu, fun d e he => ?_⟩
  rcases hrest with ⟨rfl, -⟩ | ⟨g, x, hg, hup, hx, hw'⟩
  · exact ⟨e, he, rfl, List.forall₂_same.mpr fun p _ => .inl rfl⟩
  · have hall := (deeds_routeUp hg hup hx).trans hw'
    have hdst : g.resetSoftState.rtDst = A.dst := by
      show g.rtDst = A.dst
      exact u.rtDst_of_rtLookup hg
    have hstored : ∃ f, (u.store g.resetSoftState).rtLookup d = some f ∧
        f.pathsDeleted = e.pathsDeleted ∧ f.rtPathList = e.rtPathList := by
      by_cases hd : d = A.dst
      · subst hd
        obtain rfl := Option.some.inj (hg.symm.trans he)
        exact ⟨_, World.rtLookup_store_self hg hdst, rfl, rfl⟩
      · exact ⟨e, (World.rtLookup_store_ne (by rwa [hdst])).trans he, rfl, rfl⟩
    obtain ⟨f, hf, hdel, hpaths⟩ := hstored
    obtain ⟨e', he', huse⟩ := hall.entry d f hf
    refine ⟨e', he', huse.pathsDeleted.trans hdel, ?_⟩
    rw [← hpaths]
    exact huse.paths

theorem recvRequest_advised {p : Packet} {rq : HdrRequest} (h : recvRequest env p rq w = .ok w')
    (hne : rq.rqSrc ≠ w.index) :
    Advised env ⟨rq.rqSrc, rq.rqSrcSeqno, rq.rqHopCount, p.ih.saddr,
      if rq.rqHopCount = 0 then w.index else rq.rqFirstHop, revRouteLife⟩ w w' := by
  obtain ⟨v, e, e', verdict, hv, he, hr, hrest⟩ := recvRequest_stages h hne
  obtain ⟨hlearn, hdisc⟩ := learn_of_reverseRoute hr
  have hu := (World.updated_store (A := ⟨rq.rqSrc, rq.rqSrcSeqno, rq.rqHopCount, p.ih.saddr,
    if rq.rqHopCount = 0 then w.index else rq.rqFirstHop, revRouteLife⟩) hv he hlearn).congr
      (w := w) (by rw [World.remember_eq])
  have hdst : e'.rtDst = rq.rqSrc := by
    rw [hlearn, RtEntry.rtDst_learn]
    exact v.rtDst_of_rtLookup he
  have hself : (v.store e').rtLookup rq.rqSrc = some e' := World.rtLookup_store_self he hdst
  obtain ⟨hentry, -⟩ := World.rtEnsure_remember hv he
  refine ⟨_, hu, ?_⟩
  rcases hrest with ⟨rfl, rfl⟩ | ⟨b, x, rfl, hup, hans⟩
  · refine .inl ⟨rfl, hentry ▸ hdisc rfl, fun hdown => ?_⟩
    exact hself.trans (congrArg some ((eq_of_reverseRoute hr (hentry ▸ hdown)).trans hentry))
  · have hxi : x.index = w.index := (calm_routeUp hup).index.trans hu.index
    exact .inr ⟨e', x, hself, up_of_reverseRoute hr, hup, deeds_answerRequest (hxi ▸ hne) hans⟩

theorem recvReply_advised {p : Packet} {rp : HdrReply} (h : recvReply env p rp w = .ok w')
    (hne : rp.rpDst ≠ w.index) :
    Advised env ⟨rp.rpDst, rp.rpDstSeqno, rp.rpHopCount, rp.rpSrc, rp.rpFirstHop,
      rp.rpLifetime⟩ w w' := by
  obtain ⟨v, e, e', verdict, hv, he, hr, hrest⟩ := recvReply_stages h hne
  obtain ⟨hlearn, hdisc⟩ := learn_of_forwardRoute hr
  have hdst : e'.rtDst = rp.rpDst := by
    rw [hlearn, RtEntry.rtDst_learn]
    exact v.rtDst_of_rtLookup he
  have hself : (v.store e').rtLookup rp.rpDst = some e' := World.rtLookup_store_self he hdst
  have hentry : e = w.entryFor env rp.rpDst :=
    Option.some.inj (he.symm.trans (World.rtEnsure_ok hv).1)
  refine ⟨_, World.updated_store (A := ⟨rp.rpDst, rp.rpDstSeqno, rp.rpHopCount, rp.rpSrc,
    rp.rpFirstHop, rp.rpLifetime⟩) hv he hlearn, ?_⟩
  rcases hrest with ⟨rfl, rfl⟩ | ⟨b, x, rfl, hup, hans⟩
  · refine .inl ⟨rfl, hentry ▸ hdisc rfl, fun hdown => ?_⟩
    exact hself.trans (congrArg some ((eq_of_forwardRoute hr (hentry ▸ hdown)).trans hentry))
  · exact .inr ⟨e', x, hself, up_of_forwardRoute hr, hup, deeds_forwardReply hans⟩

theorem recvHello_advised {p : Packet} {rp : HdrReply} (h : recvHello env p rp w = .ok w') :
    (rp.rpDst = w.index → w.Deeds (RtEntry.Use env.now) w') ∧ (rp.rpDst ≠ w.index →
      Advised env ⟨rp.rpDst, rp.rpDstSeqno, rp.rpHopCount, p.ih.saddr, w.index,
        rp.rpLifetime⟩ w w') := by
  have hrest : ∀ nb, recvReply env { p with ih := { p.ih with daddr := w.index } }
      { rp with rpSrc := p.ih.saddr, rpFirstHop := w.index } { w with nbhead := nb } = .ok w' →
      (rp.rpDst = w.index → w.Deeds (RtEntry.Use env.now) w') ∧ (rp.rpDst ≠ w.index →
        Advised env ⟨rp.rpDst, rp.rpDstSeqno, rp.rpHopCount, p.ih.saddr, w.index,
          rp.rpLifetime⟩ w w') := by
    intro nb h
    refine ⟨fun hd => ?_, fun hne => ?_⟩
    · unfold recvReply at h
      rw [if_pos hd] at h
      obtain rfl := Except.ok.inj h
      exact .of_routing ⟨rfl, rfl, rfl, rfl, rfl, rfl, rfl, rfl⟩ (List.Sublist.refl _) rfl
    · obtain ⟨u, hu, hrest⟩ := recvReply_advised h hne
      exact ⟨u, hu.congr rfl, hrest⟩
  unfold recvHello at h
  dsimp only at h
  split at h
  · next hnone =>
    have hnb : w.nbInsert env rp.rpDst = { w with nbhead :=
        ⟨rp.rpDst, env.now + helloInterval * allowedHelloLoss⟩ :: w.nbhead } := by
      simp only [World.nbInsert, hnone]
    rw [hnb] at h
    exact hrest _ h
  · exact hrest _ h

/-- An agent that hears an advertisement takes it in, unless it is about the node itself. -/
theorem handle_advised {inp : Input} (h : handle env inp w = .ok w') (hA : Hears inp w.index A) :
    (A.dst = w.index → w.Deeds (RtEntry.Use env.now) w') ∧
      (A.dst ≠ w.index → Advised env A w w') := by
  obtain ⟨q, rfl, hA⟩ := hA
  have hE : q.isEamrp = true := by
    unfold Packet.isEamrp
    unfold Packet.advert at hA
    split at hA <;> simp_all
  have h := recvEamrp_of_handle hE h
  unfold recvEamrp at h
  split at h
  · cases h
  · unfold Packet.advert at hA
    split at h
    · next rq hb =>
      simp only at hb
      rw [hb] at hA
      obtain rfl := Option.some.inj hA
      refine ⟨fun hd => ?_, fun hne => (recvRequest_advised h hne :)⟩
      unfold recvRequest at h
      rw [if_pos hd] at h
      exact Except.ok.inj h ▸ .refl w
    · next rp hb =>
      simp only at hb
      rw [hb] at hA
      obtain rfl := Option.some.inj hA
      refine ⟨fun hd => ?_, fun hne => recvReply_advised h hne⟩
      unfold recvReply at h
      rw [if_pos hd] at h
      exact Except.ok.inj h ▸ .refl w
    · next re hb =>
      simp only at hb
      rw [hb] at hA
      cases hA
    · next rp hb =>
      simp only at hb
      rw [hb] at hA
      obtain rfl := Option.some.inj hA
      exact (recvHello_advised h :)
    · cases h
    · cases h

theorem handle_hears {inp : Input} (h : handle env inp w = .ok w') (hA : Hears inp w.index A) :
    (A.dst = w.index → w.Calm w') ∧ (A.dst ≠ w.index → HearsAdvert env A w w') := by
  obtain ⟨hself, hother⟩ := handle_advised h hA
  exact ⟨fun hd => (hself hd).calm, fun hne => (hother hne).hears⟩

end Events

end Eamrp
