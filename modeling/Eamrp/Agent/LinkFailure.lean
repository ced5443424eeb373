import Eamrp.Agent.PathList
import Eamrp.Lib.Keyed

/-!
# Link failures

What `handle_link_failure` does to the routing table as a whole, and the RERR it sends. The
loop runs over a table of any size while the RERR has room for `EAMRP_MAX_ERRORS`
destinations, and nothing checks that.
-/

namespace Eamrp

open Lib

namespace RtEntry

/-- The neighbour is the only next hop of the entry. -/
def OnlyVia (id : NsAddr) (e : RtEntry) : Prop :=
  e.rtFlags = .up ∧ e.rtPathList.map Path.nexthop = [id]

instance (id : NsAddr) (e : RtEntry) : Decidable (e.OnlyVia id) :=
  inferInstanceAs (Decidable (_ ∧ _))

/-- The entry after the loss of the link to a neighbour. -/
def lostLink (inf : Infinity) (id : NsAddr) (e : RtEntry) : RtEntry :=
  if e.OnlyVia id then (e.pathDelete id).failed inf
  else if e.rtFlags = .up then e.pathDelete id
  else e

/-- What the RERR says about the entry. -/
def linkError (inf : Infinity) (id : NsAddr) (e : RtEntry) : HdrError :=
  if e.OnlyVia id ∧ e.rtError = true then [(e.rtDst, (e.lostLink inf id).rtSeqno)] else []

variable {inf : Infinity} {id : NsAddr} {e : RtEntry}

theorem rtDst_failed (inf : Infinity) (e : RtEntry) : (e.failed inf).rtDst = e.rtDst := by
  simp [failed]

@[simp] theorem rtDst_lostLink (inf : Infinity) (id : NsAddr) (e : RtEntry) :
    (e.lostLink inf id).rtDst = e.rtDst := by
  unfold lostLink
  split_ifs
  · exact rtDst_failed _ _
  · rfl
  · rfl

/-- Without a path over the neighbour there is nothing to delete. -/
theorem pathDelete_of_none (h : e.pathLookup id = none) : e.pathDelete id = e := by
  have herase : e.rtPathList.eraseP (fun p => p.nexthop == id) = e.rtPathList :=
    List.eraseP_of_forall_not (List.find?_eq_none.mp h)
  simp [pathDelete, herase, h]

variable (id) in
/-- Next hops are distinct, so deleting the first path over a neighbour deletes them all. -/
theorem rtPathList_pathDelete (hnd : (e.rtPathList.map Path.nexthop).Nodup) :
    (e.pathDelete id).rtPathList = e.rtPathList.filter (fun p => decide (p.nexthop ≠ id)) :=
  eraseP_eq_filter hnd id

/-- Deleting the path over the neighbour leaves nothing if it is the only next hop. -/
theorem pathDelete_nil_iff (hp : (e.pathLookup id).isSome = true) :
    (e.pathDelete id).rtPathList = [] ↔ e.rtPathList.map Path.nexthop = [id] := by
  obtain ⟨p, hp⟩ := Option.isSome_iff_exists.mp hp
  have hmem := List.mem_of_find?_eq_some hp
  have hid : (p.nexthop == id) = true :=
    List.find?_some (p := fun p : Path => p.nexthop == id) hp
  constructor
  · intro hnil
    have hlen := List.length_eraseP_of_mem hmem (p := fun p => p.nexthop == id) hid
    have hzero : (e.rtPathList.eraseP fun p => p.nexthop == id).length = 0 :=
      List.length_eq_zero_iff.mpr hnil
    have hpos := List.length_pos_of_mem hmem
    obtain ⟨q, hq⟩ := List.length_eq_one_iff.mp (show e.rtPathList.length = 1 by omega)
    rw [hq] at hmem ⊢
    obtain rfl := List.mem_singleton.mp hmem
    simpa using hid
  · intro honly
    obtain ⟨q, hq, hqid⟩ := List.map_eq_singleton_iff.mp honly
    simp [pathDelete, hq, hqid]

theorem lostLink_of_none (h : e.pathLookup id = none) : e.lostLink inf id = e := by
  have hnot : ¬ e.OnlyVia id := by
    rintro ⟨-, honly⟩
    obtain ⟨q, hq, hqid⟩ := List.map_eq_singleton_iff.mp honly
    simp [pathLookup, hq, hqid] at h
  unfold lostLink
  rw [if_neg hnot, pathDelete_of_none h, ite_self]

theorem isSome_of_onlyVia (h : e.OnlyVia id) : (e.pathLookup id).isSome = true := by
  obtain ⟨q, hq, hqid⟩ := List.map_eq_singleton_iff.mp h.2
  simp [pathLookup, hq, hqid]

end RtEntry

namespace RTable

/-- Writing back an entry that has not changed. -/
theorem store_self {t : RTable} (hnd : (t.map RtEntry.rtDst).Nodup) {e : RtEntry} (he : e ∈ t) :
    t.store e = t := by
  obtain ⟨u, v, rfl⟩ := List.append_of_mem he
  exact put_append hnd rfl

end RTable

/-- The turn of the loop at an entry. -/
theorem linkFailureEntry_cases {env : Env} {id : NsAddr} {w : World} {re : HdrError}
    {e : RtEntry} (he : e ∈ w.rtable) (hnd : (w.rtable.map RtEntry.rtDst).Nodup)
    (hl : w.rtLookup e.rtDst = some e) (hcount : e.rtNumPaths = e.rtPathList.length)
    (hre : re.length ≤ eamrpMaxErrors) :
    (linkFailureEntry env id (w, re) e.rtDst =
        .ok (w.store (e.lostLink env.inf id), re ++ e.linkError env.inf id) ∧
      (re ++ e.linkError env.inf id).length ≤ eamrpMaxErrors) ∨
    (linkFailureEntry env id (w, re) e.rtDst = .error .errorOverflow ∧
      eamrpMaxErrors < (re ++ e.linkError env.inf id).length) ∨
    (linkFailureEntry env id (w, re) e.rtDst = .error .linkFailureSeqno ∧
      e.rtFlags = .up ∧ (e.pathLookup id).isSome = true ∧ e.rtSeqno % 2 ≠ 0) := by
  unfold linkFailureEntry
  simp only [hl]
  by_cases hc : e.rtFlags = .up ∧ (e.pathLookup id).isSome = true
  · rw [if_pos hc]
    by_cases hodd : e.rtSeqno % 2 ≠ 0
    · right; right
      exact ⟨if_pos hodd, hc.1, hc.2, hodd⟩
    rw [if_neg hodd]
    have hcount' := RtEntry.pathDelete_count id hcount
    rcases (e.pathDelete id).pathEmpty_cases with ⟨hpe, hnil⟩ | ⟨hpe, hne⟩ | ⟨f, -, -, hbad⟩
    · have honly : e.OnlyVia id := ⟨hc.1, (RtEntry.pathDelete_nil_iff hc.2).mp hnil⟩
      have hlost : e.lostLink env.inf id = (e.pathDelete id).failed env.inf := if_pos honly
      have hseq : (e.lostLink env.inf id).rtSeqno =
          macroMax ((e.pathDelete id).rtSeqno + 1) (e.pathDelete id).rtHighestSeqnoHeard := by
        rw [hlost]
        exact RtEntry.rtSeqno_rtDown _ _
      rw [hpe]
      by_cases herr : e.rtError = true
      · have herr' : (e.pathDelete id).rtError = true := herr
        have hlist : e.linkError env.inf id = [(e.rtDst, (e.lostLink env.inf id).rtSeqno)] :=
          if_pos ⟨honly, herr⟩
        rw [hlist, hseq, hlost]
        simp only [ok_bind, if_true, herr']
        by_cases hlen : re.length < eamrpMaxErrors
        · left
          refine ⟨?_, by rw [List.length_append]; exact hlen⟩
          rw [HdrError.add, if_pos hlen]
          rfl
        · right; left
          refine ⟨?_, ?_⟩
          · rw [HdrError.add, if_neg hlen]
            rfl
          · rw [List.length_append, List.length_singleton]
            omega
      · have herr' : (e.pathDelete id).rtError = false := Bool.eq_false_iff.mpr herr
        have hlist : e.linkError env.inf id = [] := if_neg fun h => herr h.2
        left
        rw [hlist, List.append_nil, hlost]
        simp only [ok_bind, if_true, herr', Bool.false_eq_true, if_false]
        exact ⟨rfl, hre⟩
    · have hnot : ¬ e.OnlyVia id := fun h => hne ((RtEntry.pathDelete_nil_iff hc.2).mpr h.2)
      have hlost : e.lostLink env.inf id = e.pathDelete id := by
        rw [RtEntry.lostLink, if_neg hnot, if_pos hc.1]
      have hlist : e.linkError env.inf id = [] := if_neg fun h => hnot h.1
      left
      rw [hpe, hlist, List.append_nil, hlost]
      exact ⟨rfl, hre⟩
    · exact absurd hcount' hbad
  · have hsame : e.lostLink env.inf id = e := by
      by_cases hup : e.rtFlags = .up
      · have hnone : e.pathLookup id = none :=
          Option.not_isSome_iff_eq_none.mp fun h => hc ⟨hup, h⟩
        exact RtEntry.lostLink_of_none hnone
      · rw [RtEntry.lostLink, if_neg fun h => hup h.1, if_neg hup]
    have hlist : e.linkError env.inf id = [] := if_neg fun h => hc ⟨h.1.1,
      RtEntry.isSome_of_onlyVia h.1⟩
    have hstore : w.store e = w := by
      rw [World.store, RTable.store_self hnd he]
    left
    rw [if_neg hc, hlist, List.append_nil, hsame, hstore]
    exact ⟨rfl, hre⟩

namespace World

/-- Only the routing table differs, also after a write to it. -/
theorem store_table {w v : World} (h : v = { w with rtable := v.rtable }) (e : RtEntry) :
    v.store e = { w with rtable := (v.store e).rtable } := by
  rw [h]
  rfl

/-- The table after the loss of the link to a neighbour. -/
def lostLink (inf : Infinity) (id : NsAddr) (w : World) : World :=
  { w with rtable := w.rtable.map (RtEntry.lostLink inf id) }

/-- What the RERR lists. -/
def linkErrors (inf : Infinity) (id : NsAddr) (w : World) : HdrError :=
  w.rtable.flatMap (RtEntry.linkError inf id)

theorem rtLookup_lostLink (inf : Infinity) (id : NsAddr) (w : World) (d : NsAddr) :
    (w.lostLink inf id).rtLookup d = (w.rtLookup d).map (RtEntry.lostLink inf id) :=
  RTable.rtLookup_map (RtEntry.rtDst_lostLink inf id) w.rtable d

end World

/-- The outcomes of `handle_link_failure`: it returns with a RERR that lists all that is to be
listed, the RERR overflows, or the assert on an entry fails. -/
theorem handleLinkFailure_cases (env : Env) (id : NsAddr) {w : World}
    (hw : w.toAgent.PathLists) :
    (handleLinkFailure env id w = .ok (if 0 < (w.linkErrors env.inf id).length then
        sendError env (w.linkErrors env.inf id) false (w.lostLink env.inf id)
        else w.lostLink env.inf id) ∧ (w.linkErrors env.inf id).length ≤ eamrpMaxErrors) ∨
    (handleLinkFailure env id w = .error .errorOverflow ∧
      eamrpMaxErrors < (w.linkErrors env.inf id).length) ∨
    (handleLinkFailure env id w = .error .linkFailureSeqno ∧
      ∃ e ∈ w.rtable, e.rtFlags = .up ∧ (e.pathLookup id).isSome = true ∧ e.rtSeqno % 2 ≠ 0) := by
  have hsweep := sweep RtEntry.rtDst (fun s : World × HdrError => s.1.rtable)
    (f := linkFailureEntry env id) (s := (w, [])) (R := fun x y => y = x.lostLink env.inf id)
    (I := fun u s => s.1 = { w with rtable := s.1.rtable } ∧
      s.2 = u.flatMap (RtEntry.linkError env.inf id) ∧ s.2.length ≤ eamrpMaxErrors)
    (E := fun u x err => (err = .errorOverflow ∧
        eamrpMaxErrors < ((u ++ [x]).flatMap (RtEntry.linkError env.inf id)).length) ∨
      (err = .linkFailureSeqno ∧ x.rtFlags = .up ∧ (x.pathLookup id).isSome = true ∧
        x.rtSeqno % 2 ≠ 0)) rfl hw.dst ⟨rfl, rfl, Nat.zero_le _⟩ ?_
  · unfold handleLinkFailure
    rcases hsweep with ⟨⟨w', re⟩, hloop, htable, ⟨hw', hre, hlen⟩⟩ | ⟨u, x, v, err, hl, hloop, herr⟩
    · left
      have htable : w'.rtable = w.rtable.map (RtEntry.lostLink env.inf id) :=
        eq_map_of_forall₂ htable
      have hlost : w' = w.lostLink env.inf id := by
        rw [World.lostLink, ← htable]
        exact hw'
      have hre : re = w.linkErrors env.inf id := hre
      rw [hloop, ok_bind, ← hlost, ← hre]
      exact ⟨rfl, hlen⟩
    · right
      rw [hloop]
      rcases herr with ⟨rfl, hover⟩ | ⟨rfl, hup, hp, hodd⟩
      · left
        refine ⟨rfl, hover.trans_le ?_⟩
        have hsplit : w.linkErrors env.inf id =
            (u ++ [x]).flatMap (RtEntry.linkError env.inf id) ++
              v.flatMap (RtEntry.linkError env.inf id) := by
          rw [← List.flatMap_append, ← List.append_cons, ← hl]
          rfl
        rw [hsplit, List.length_append]
        exact Nat.le_add_right _ _
      · right
        exact ⟨rfl, x, by rw [hl]; simp, hup, hp, hodd⟩
  · rintro u x v ⟨w₁, re⟩ hl ⟨hw₁, hre, hlen⟩ hx hnd
    have hx : x ∈ w₁.rtable := hx
    have hmem : x ∈ w.rtable := hl ▸ List.mem_append_right _ (List.mem_cons_self ..)
    have hfound : w₁.rtLookup x.rtDst = some x := RTable.rtLookup_of_mem hnd hx
    have hre : re = u.flatMap (RtEntry.linkError env.inf id) := hre
    have hnext : re ++ x.linkError env.inf id =
        (u ++ [x]).flatMap (RtEntry.linkError env.inf id) := by
      rw [List.flatMap_append, ← hre, List.flatMap_singleton]
    rcases linkFailureEntry_cases hx hnd hfound (hw.entry x hmem).count hlen with
      ⟨hok, hlen'⟩ | ⟨herr, hover⟩ | ⟨herr, hodd⟩
    · left
      exact ⟨_, x.lostLink env.inf id, hok, RtEntry.rtDst_lostLink _ _ _, rfl, rfl,
        World.store_table hw₁ _, hnext, hlen'⟩
    · right
      exact ⟨_, herr, .inl ⟨rfl, hnext ▸ hover⟩⟩
    · right
      exact ⟨_, herr, .inr ⟨rfl, hodd⟩⟩

namespace Agent

/-- The entries that a RERR about the loss of a neighbour has to list. -/
def reportable (id : NsAddr) (a : Agent) : List RtEntry :=
  a.rtable.filter fun e => decide (e.OnlyVia id ∧ e.rtError = true)

/-- What is reported when the link to a neighbour is lost. -/
structure Reports (id : NsAddr) (a : Agent) (w' : World) : Prop where
  silent : a.reportable id = [] → w'.out = []
  rerr : a.reportable id ≠ [] → ∃ p delay re, w'.out = [.target p delay] ∧ p.body = .rerr re ∧
    re.length ≤ eamrpMaxErrors ∧ re.map Prod.fst = (a.reportable id).map RtEntry.rtDst ∧
    (re.map Prod.fst).Nodup ∧
    ∀ u ∈ re, ∃ e', w'.rtLookup u.1 = some e' ∧ e'.rtSeqno = u.2
  cleared : ∀ e ∈ a.rtable, ∃ e', w'.rtLookup e.rtDst = some e' ∧
    (e'.rtError ≠ e.rtError ↔ e ∈ a.reportable id)

theorem linkErrors_world (inf : Infinity) (id : NsAddr) (a : Agent) :
    a.world.linkErrors inf id =
      (a.reportable id).map fun e => (e.rtDst, (e.lostLink inf id).rtSeqno) := by
  unfold World.linkErrors reportable
  change a.rtable.flatMap _ = _
  induction a.rtable with
  | nil => rfl
  | cons e t ih =>
    rw [List.flatMap_cons, ih, List.filter_cons]
    by_cases hc : e.OnlyVia id ∧ e.rtError = true
    · rw [if_pos (decide_eq_true hc), RtEntry.linkError, if_pos hc]
      rfl
    · rw [if_neg (by simpa using hc), RtEntry.linkError, if_neg hc]
      rfl

theorem mem_reportable {id : NsAddr} {a : Agent} {e : RtEntry} (he : e ∈ a.rtable) :
    e ∈ a.reportable id ↔ e.OnlyVia id ∧ e.rtError = true := by
  simp [reportable, he]

/-- An entry loses its mark exactly when it is reported. -/
theorem rtError_lostLink (inf : Infinity) (id : NsAddr) (e : RtEntry) :
    (e.lostLink inf id).rtError ≠ e.rtError ↔ e.OnlyVia id ∧ e.rtError = true := by
  unfold RtEntry.lostLink
  split_ifs with hv hup
  · have hoff : ((e.pathDelete id).failed inf).rtError = false := by
      unfold RtEntry.failed RtEntry.rtDown
      split_ifs <;> rfl
    rw [hoff]
    cases e.rtError <;> simp [hv]
  · simp [hv, RtEntry.pathDelete]
  · simp [hv]

/-- The world that `handle_link_failure` returns reports the loss. -/
theorem reports_lostLink {a : Agent} (ha : a.PathLists) {env : Env} {id : NsAddr}
    (hlen : (a.reportable id).length ≤ eamrpMaxErrors) :
    a.Reports id (if 0 < (a.world.linkErrors env.inf id).length then
      sendError env (a.world.linkErrors env.inf id) false (a.world.lostLink env.inf id)
      else a.world.lostLink env.inf id) := by
  have hlookup : ∀ e ∈ a.rtable, (a.world.lostLink env.inf id).rtLookup e.rtDst =
      some (e.lostLink env.inf id) := by
    intro e he
    have hfound : a.world.rtLookup e.rtDst = some e := ha.rtLookup_of_mem he
    rw [World.rtLookup_lostLink, hfound, Option.map_some]
  have hcleared : ∀ e ∈ a.rtable, ∃ e', (a.world.lostLink env.inf id).rtLookup e.rtDst = some e' ∧
      (e'.rtError ≠ e.rtError ↔ e ∈ a.reportable id) := by
    intro e he
    exact ⟨_, hlookup e he, by rw [rtError_lostLink, mem_reportable he]⟩
  have hcount : (a.world.linkErrors env.inf id).length = (a.reportable id).length := by
    rw [linkErrors_world, List.length_map]
  split
  · next hpos =>
    have hne : a.reportable id ≠ [] := List.ne_nil_of_length_pos (hcount ▸ hpos)
    refine ⟨fun hnil => absurd hnil hne, fun _ => ?_, hcleared⟩
    have hdsts : (a.world.linkErrors env.inf id).map Prod.fst =
        (a.reportable id).map RtEntry.rtDst := by
      rw [linkErrors_world, List.map_map]
      rfl
    refine ⟨_, _, _, rfl, rfl, hcount ▸ hlen, hdsts, ?_, ?_⟩
    · rw [hdsts]
      exact (List.filter_sublist.map RtEntry.rtDst).nodup ha.dst
    · intro u hu
      rw [linkErrors_world] at hu
      obtain ⟨e, he, rfl⟩ := List.mem_map.mp hu
      exact ⟨_, hlookup e (List.mem_filter.mp he).1, rfl⟩
  · next hpos =>
    have hnil : a.reportable id = [] := List.length_eq_zero_iff.mp (by omega)
    exact ⟨fun _ => rfl, fun hne => absurd hnil hne, hcleared⟩

/-- Route errors are complete and in bounds: in a reachable state where the assert on the
sequence numbers holds, `handle_link_failure` returns with one RERR about exactly the marked
entries that were up over the lost neighbour only, if and only if these are no more than
`EAMRP_MAX_ERRORS`. -/
theorem link_failure_report {a : Agent} (h : a.Reachable) (env : Env) (id : NsAddr)
    (heven : ∀ e ∈ a.rtable, e.rtFlags = .up → (e.pathLookup id).isSome = true →
      e.rtSeqno % 2 = 0) :
    (∃ w', handleLinkFailure env id a.world = .ok w' ∧ a.Reports id w') ↔
      (a.reportable id).length ≤ eamrpMaxErrors := by
  have ha := h.pathLists
  have hcount : (a.world.linkErrors env.inf id).length = (a.reportable id).length := by
    rw [linkErrors_world, List.length_map]
  constructor
  · rintro ⟨w', hok, -⟩
    rcases handleLinkFailure_cases env id (w := a.world) ha with
      ⟨-, hlen⟩ | ⟨herr, -⟩ | ⟨herr, -⟩
    · exact hcount ▸ hlen
    · cases hok.symm.trans herr
    · cases hok.symm.trans herr
  · intro hlen
    rcases handleLinkFailure_cases env id (w := a.world) ha with
      ⟨hok, -⟩ | ⟨-, hover⟩ | ⟨-, e, he, hup, hp, hodd⟩
    · exact ⟨_, hok, reports_lostLink ha hlen⟩
    · rw [hcount] at hover
      omega
    · exact absurd (heven e he hup hp) hodd

/-- Node 2 hears RREQs of nodes `10, 11, …` from its neighbour 3, each for the source of the
one before, and answers them. -/
def crowd (n : Nat) : List Turn :=
  (List.range n).map fun k =>
    let rq : HdrRequest :=
      { rqHopCount := 1, rqBcastId := 1, rqDst := 9 + k, rqDstSeqno := 0, rqSrc := 10 + k,
        rqSrcSeqno := 2, rqTimestamp := 0, rqFirstHop := 4 }
    ⟨{ now := 0, inf := .mathH },
      .recv { ih := { saddr := 3, daddr := ipBroadcast, sport := rtPort, dport := rtPort, ttl := 9 }
              body := .rreq rq }⟩

/-- The state that a list of events leads to, if none of them faults. -/
def play (w : World) (l : List Turn) : Except Fault World :=
  l.foldlM (fun w τ => handle τ.env τ.input w.toAgent.world) w

theorem reachable_of_play {l : List Turn} {v w : World} (hv : Lib.Reachable Fresh Handles v)
    (h : play v l = .ok w) : w.toAgent.Reachable := by
  have hw : Lib.Reachable Fresh Handles w :=
    foldlM_ok (J := Lib.Reachable Fresh Handles) (fun _ _ _ _ hu hs => hu.next hs) hv h
  exact ⟨w, hw, rfl⟩

/-- A play whose end passes a test. -/
theorem exists_of_play {l : List Turn} {v : World} {c : World → Bool}
    (hv : Lib.Reachable Fresh Handles v) (h : (play v l).toOption.any c = true) :
    ∃ w : World, w.toAgent.Reachable ∧ c w = true := by
  cases hp : play v l with
  | error f =>
    rw [hp] at h
    cases h
  | ok w =>
    rw [hp] at h
    exact ⟨w, reachable_of_play hv hp, h⟩

/-- The RERR about the loss of node 3 has too much to list, and every number is even. -/
def crowded (w : World) : Bool :=
  w.rtable.all (fun e => decide (e.rtSeqno % 2 = 0)) &&
    decide (eamrpMaxErrors < (w.reportable 3).length)

theorem exists_crowded : ∃ w : World, w.toAgent.Reachable ∧ crowded w = true :=
  exists_of_play (l := crowd 102) (.start (fresh_idle 2)) (by decide +kernel)

/-- In a crowd, the loss of the neighbour writes past the arrays of the RERR. -/
theorem report_overflow :
    ∃ a : Agent, a.Reachable ∧ (∀ e ∈ a.rtable, e.rtSeqno % 2 = 0) ∧
      handleLinkFailure { now := 1, inf := .mathH } 3 a.world = .error .errorOverflow := by
  obtain ⟨w, hw, hc⟩ := exists_crowded
  rw [crowded, Bool.and_eq_true, List.all_eq_true, decide_eq_true_eq] at hc
  obtain ⟨heven, hlen⟩ := hc
  have heven : ∀ e ∈ w.rtable, e.rtSeqno % 2 = 0 := fun e he => of_decide_eq_true (heven e he)
  refine ⟨w.toAgent, hw, heven, ?_⟩
  rcases handleLinkFailure_cases { now := 1, inf := .mathH } 3
    (w := w.toAgent.world) hw.pathLists with ⟨-, hle⟩ | ⟨herr, -⟩ | ⟨-, e, he, -, -, hodd⟩
  · rw [linkErrors_world, List.length_map] at hle
    exact absurd hle (Nat.not_le.mpr hlen)
  · exact herr
  · exact absurd (heven e he) hodd

/-- Among three nodes the loss is reported. -/
theorem link_failure_report_crowd :
    ∃ w', handleLinkFailure { now := 1, inf := .mathH } 3
        (final (idle 2) (crowd 2)).toAgent.world = .ok w' ∧
      (final (idle 2) (crowd 2)).toAgent.Reports 3 w' := by
  have hreach : (final (idle 2) (crowd 2)).toAgent.Reachable :=
    ⟨_, ⟨_, run_idle (by decide +kernel)⟩, rfl⟩
  exact (link_failure_report hreach _ 3 (by decide +kernel)).mpr (by decide +kernel)

end Agent

end Eamrp
