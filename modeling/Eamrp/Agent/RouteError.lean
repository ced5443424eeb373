import Eamrp.Agent.LinkFailure
import Eamrp.Net.Parity

/-!
# Received route errors

What `recvError` does to the routing table as a whole, and the RERR it sends. The destinations
of the RERR are handled one by one and may repeat; for each entry the first listed number that
is not below its own decides.
-/

namespace Eamrp

open Lib

namespace RtEntry

/-- A listed destination and number apply to the entry. -/
def Concerns (e : RtEntry) (u : NsAddr × UInt32) : Prop := u.1 = e.rtDst ∧ e.rtSeqno ≤ u.2

instance (e : RtEntry) (u : NsAddr × UInt32) : Decidable (e.Concerns u) :=
  inferInstanceAs (Decidable (_ ∧ _))

/-- The first listed number that applies to the entry. -/
def firstError (re : HdrError) (e : RtEntry) : Option UInt32 :=
  (re.find? fun u => decide (e.Concerns u)).map Prod.snd

/-- The entry after the loss of a path to a RERR with this number. -/
def hitBy (inf : Infinity) (x : NsAddr) (n : UInt32) (e : RtEntry) : RtEntry :=
  if (e.pathDelete x).rtPathList = [] then ((e.pathDelete x).heardError n).withdrawn inf
  else (e.pathDelete x).heardError n

/-- The entry after a RERR from node `x`. -/
def afterError (inf : Infinity) (x : NsAddr) (re : HdrError) (e : RtEntry) : RtEntry :=
  if e.rtFlags = .up ∧ (e.pathLookup x).isSome = true then
    (e.firstError re).elim e fun n => e.hitBy inf x n
  else e

variable {inf : Infinity} {x : NsAddr} {re : HdrError} {e : RtEntry}

theorem firstError_append (re : HdrError) (u : NsAddr × UInt32) (e : RtEntry) :
    e.firstError (re ++ [u]) =
      (e.firstError re).or (if e.Concerns u then some u.2 else none) := by
  unfold firstError
  rw [List.find?_append]
  cases re.find? fun u => decide (e.Concerns u) with
  | some v => rfl
  | none =>
    by_cases hc : e.Concerns u
    · simp [hc]
    · simp [hc]

theorem rtDst_hitBy (inf : Infinity) (x : NsAddr) (n : UInt32) (e : RtEntry) :
    (e.hitBy inf x n).rtDst = e.rtDst := by
  unfold hitBy
  split_ifs
  · exact rtDst_rtDown _ _
  · rfl

@[simp] theorem rtDst_afterError (inf : Infinity) (x : NsAddr) (re : HdrError) (e : RtEntry) :
    (e.afterError inf x re).rtDst = e.rtDst := by
  unfold afterError
  split_ifs
  · cases e.firstError re with
    | none => rfl
    | some n => exact rtDst_hitBy _ _ _ _
  · rfl

theorem afterError_of_none (h : e.firstError re = none) : e.afterError inf x re = e := by
  rw [afterError, h]
  exact ite_self _

theorem afterError_of_some {n : UInt32} (hup : e.rtFlags = .up)
    (hp : (e.pathLookup x).isSome = true) (h : e.firstError re = some n) :
    e.afterError inf x re = e.hitBy inf x n := by
  rw [afterError, if_pos ⟨hup, hp⟩, h]
  rfl

theorem afterError_of_not (h : ¬ (e.rtFlags = .up ∧ (e.pathLookup x).isSome = true)) :
    e.afterError inf x re = e :=
  if_neg h

/-- Only what is listed for the entry matters. -/
theorem afterError_congr {re' : HdrError} (h : e.firstError re' = e.firstError re) :
    e.afterError inf x re' = e.afterError inf x re := by
  rw [afterError, afterError, h]

theorem afterError_of_ne {u : NsAddr × UInt32} (h : e.rtDst ≠ u.1) :
    e.afterError inf x (re ++ [u]) = e.afterError inf x re := by
  apply afterError_congr
  rw [firstError_append, if_neg fun hc => h hc.1.symm]
  exact Option.or_none

/-- Next hops are distinct, so no second path over the node is left. -/
theorem pathLookup_pathDelete (hnd : (e.rtPathList.map Path.nexthop).Nodup) :
    (e.pathDelete x).pathLookup x = none := by
  rw [pathLookup, rtPathList_pathDelete _ hnd]
  apply List.find?_eq_none.mpr
  intro p hp
  simpa using of_decide_eq_true (List.mem_filter.mp hp).2

/-- An entry reacts at most once. -/
theorem not_hit_twice {n : UInt32} (hnd : (e.rtPathList.map Path.nexthop).Nodup) :
    ¬ ((e.hitBy inf x n).rtFlags = .up ∧ ((e.hitBy inf x n).pathLookup x).isSome = true) := by
  rintro ⟨hup, hp⟩
  unfold hitBy at hup hp
  split at hup
  · cases (rtFlags_rtDown inf _).symm.trans hup
  · next hne =>
    rw [if_neg hne] at hp
    have hnone : ((e.pathDelete x).heardError n).pathLookup x = none := pathLookup_pathDelete hnd
    rw [hnone] at hp
    cases hp

end RtEntry

/-! ### The loop of `recvError` -/

/-- Rewriting one more entry of a table. -/
theorem RTable.store_map {t : RTable} (hnd : (t.map RtEntry.rtDst).Nodup)
    {g g' : RtEntry → RtEntry} (hg : ∀ e, (g e).rtDst = e.rtDst)
    (hg' : ∀ e, (g' e).rtDst = e.rtDst) {e : RtEntry} (he : e ∈ t)
    (hother : ∀ f ∈ t, f.rtDst ≠ e.rtDst → g' f = g f) :
    RTable.store (t.map g) (g' e) = t.map g' := by
  rw [store, List.map_map]
  apply List.map_congr_left
  intro f hf
  rw [Function.comp_apply, hg, hg']
  by_cases hd : f.rtDst = e.rtDst
  · rw [if_pos hd, List.inj_on_of_nodup_map hnd hf he hd]
  · rw [if_neg hd, hother f hf hd]

section Loop

variable {env : Env} {x : NsAddr} {w : World} {u : HdrError} {c : NsAddr × UInt32}
  {s : World × HdrError} {e : RtEntry}

/-- The turn of the loop at a destination whose entry reacts. -/
theorem errorEntry_hit (hl : s.1.rtLookup c.1 = some e) (hup : e.rtFlags = .up)
    (hp : (e.pathLookup x).isSome = true) (hle : e.rtSeqno ≤ c.2) (hev : e.rtSeqno % 2 = 0)
    (hcount : e.rtNumPaths = e.rtPathList.length) (hroom : s.2.length < eamrpMaxErrors) :
    errorEntry env x s c = .ok (s.1.store (e.hitBy env.inf x c.2),
      s.2 ++ if (e.hitBy env.inf x c.2).rtFlags = .down ∧ e.rtError = true then
        [((e.hitBy env.inf x c.2).rtDst, (e.hitBy env.inf x c.2).rtSeqno)] else []) := by
  unfold errorEntry
  simp only [hl]
  rw [if_pos ⟨hup, hp, hle⟩, if_neg (not_not.mpr hev)]
  have hcount' : ((e.pathDelete x).heardError c.2).rtNumPaths =
      ((e.pathDelete x).heardError c.2).rtPathList.length := RtEntry.pathDelete_count x hcount
  rcases ((e.pathDelete x).heardError c.2).pathEmpty_cases with
    ⟨hpe, hnil⟩ | ⟨hpe, hne⟩ | ⟨f, -, -, hbad⟩
  · have hhit : e.hitBy env.inf x c.2 = ((e.pathDelete x).heardError c.2).withdrawn env.inf :=
      if_pos hnil
    have hdown : (e.hitBy env.inf x c.2).rtFlags = .down := by
      rw [hhit]
      exact RtEntry.rtFlags_rtDown _ _
    change (RtEntry.pathEmpty ((e.pathDelete x).heardError c.2) >>= _) = _
    rw [hpe, ok_bind, if_pos rfl]
    by_cases herr : (e.hitBy env.inf x c.2).rtFlags = .down ∧ e.rtError = true
    · rw [if_pos herr, hhit]
      split
      · rw [HdrError.add, if_pos hroom]
        rfl
      · next hnot =>
        rw [RtEntry.rtError_rtDown] at hnot
        exact absurd herr.2 hnot
    · rw [if_neg herr, List.append_nil, hhit]
      split
      · next hmark =>
        rw [RtEntry.rtError_rtDown] at hmark
        exact absurd ⟨hdown, hmark⟩ herr
      · rfl
  · have hhit : e.hitBy env.inf x c.2 = (e.pathDelete x).heardError c.2 := if_neg hne
    have hup' : (e.hitBy env.inf x c.2).rtFlags = .up := by
      rw [hhit]
      exact hup
    have hnot : ¬ ((e.hitBy env.inf x c.2).rtFlags = .down ∧ e.rtError = true) :=
      fun h => by cases hup'.symm.trans h.1
    change (RtEntry.pathEmpty ((e.pathDelete x).heardError c.2) >>= _) = _
    rw [hpe, ok_bind, if_neg hnot, List.append_nil, hhit]
    rfl
  · exact absurd hcount' hbad

/-- The loop has handled the destinations in `u`: every entry is what they make of it, and the
RERR lists the marked entries that have gone down. -/
structure ErrorLoop (inf : Infinity) (x : NsAddr) (w : World) (u : HdrError)
    (s : World × HdrError) : Prop where
  world : s.1 = { w with rtable := w.rtable.map (RtEntry.afterError inf x u) }
  length : s.2.length ≤ u.length
  nodup : (s.2.map Prod.fst).Nodup
  mem : ∀ v, v ∈ s.2 ↔ ∃ e ∈ w.rtable, e.rtDst = v.1 ∧ e.rtError = true ∧ e.rtFlags = .up ∧
    (e.afterError inf x u).rtFlags = .down ∧ (e.afterError inf x u).rtSeqno = v.2
  even : ∀ e ∈ w.rtable, e.rtFlags = .up → (e.pathLookup x).isSome = true →
    (e.firstError u).isSome = true → e.rtSeqno % 2 = 0

/-- No entry reacts to the next destination. -/
theorem ErrorLoop.skip {inf : Infinity} (h : ErrorLoop inf x w u s)
    (hkeep : ∀ e ∈ w.rtable, e.rtFlags = .up → (e.pathLookup x).isSome = true →
      e.firstError (u ++ [c]) = e.firstError u) : ErrorLoop inf x w (u ++ [c]) s := by
  have hsame : ∀ e ∈ w.rtable, e.afterError inf x (u ++ [c]) = e.afterError inf x u := by
    intro e he
    by_cases hc : e.rtFlags = .up ∧ (e.pathLookup x).isSome = true
    · exact RtEntry.afterError_congr (hkeep e he hc.1 hc.2)
    · rw [RtEntry.afterError_of_not hc, RtEntry.afterError_of_not hc]
  refine ⟨?_, ?_, h.nodup, fun v => ?_, fun e he hup hp hsome => ?_⟩
  · rw [h.world, List.map_congr_left hsame]
  · rw [List.length_append]
    exact h.length.trans (Nat.le_add_right _ _)
  · rw [h.mem]
    constructor
    · rintro ⟨e, he, hrest⟩
      exact ⟨e, he, by rw [hsame e he]; exact hrest⟩
    · rintro ⟨e, he, hrest⟩
      exact ⟨e, he, by rw [hsame e he] at hrest; exact hrest⟩
  · rw [hkeep e he hup hp] at hsome
    exact h.even e he hup hp hsome

/-- The entry `e` reacts to the next destination. -/
theorem ErrorLoop.hit (hw : w.toAgent.PathLists) (h : ErrorLoop env.inf x w u s)
    (he : e ∈ w.rtable) (hup : e.rtFlags = .up) (hp : (e.pathLookup x).isSome = true)
    (hnone : e.firstError u = none) (hc : e.Concerns c) (hev : e.rtSeqno % 2 = 0) :
    ErrorLoop env.inf x w (u ++ [c]) (s.1.store (e.hitBy env.inf x c.2),
      s.2 ++ if (e.hitBy env.inf x c.2).rtFlags = .down ∧ e.rtError = true then
        [((e.hitBy env.inf x c.2).rtDst, (e.hitBy env.inf x c.2).rtSeqno)] else []) := by
  have hfirst : e.firstError (u ++ [c]) = some c.2 := by
    rw [RtEntry.firstError_append, hnone, if_pos hc]
    rfl
  have hself : e.afterError env.inf x (u ++ [c]) = e.hitBy env.inf x c.2 :=
    RtEntry.afterError_of_some hup hp hfirst
  have hold : e.afterError env.inf x u = e := RtEntry.afterError_of_none hnone
  have hone : ∀ f ∈ w.rtable, f.rtDst = e.rtDst → f = e :=
    fun f hf hd => List.inj_on_of_nodup_map hw.dst hf he hd
  have hother : ∀ f ∈ w.rtable, f.rtDst ≠ e.rtDst →
      f.afterError env.inf x (u ++ [c]) = f.afterError env.inf x u :=
    fun f _ hd => RtEntry.afterError_of_ne (hc.1 ▸ hd)
  -- The entry was up before, so the RERR does not list it yet.
  have hnew : ∀ v ∈ s.2, v.1 ≠ e.rtDst := by
    intro v hv hd
    obtain ⟨f, hf, hfd, -, -, hdown, -⟩ := (h.mem v).mp hv
    rw [hone f hf (hfd.trans hd), hold, hup] at hdown
    cases hdown
  refine ⟨?_, ?_, ?_, fun v => ?_, fun f hf hfup hfp hsome => ?_⟩
  · rw [h.world]
    change { w with rtable := RTable.store _ _ } = _
    rw [← hself, RTable.store_map hw.dst (RtEntry.rtDst_afterError _ _ _)
      (RtEntry.rtDst_afterError _ _ _) he hother]
  · have := h.length
    rw [List.length_append, List.length_append]
    split <;> simp <;> omega
  · rw [List.map_append, List.nodup_append]
    refine ⟨h.nodup, by split <;> simp, ?_⟩
    intro d hd d' hd'
    obtain ⟨v, hv, rfl⟩ := List.mem_map.mp hd
    split at hd'
    · rw [List.mem_singleton.mp hd']
      change v.1 ≠ (e.hitBy env.inf x c.2).rtDst
      rw [RtEntry.rtDst_hitBy]
      exact hnew v hv
    · exact absurd hd' List.not_mem_nil
  · rw [List.mem_append]
    constructor
    · rintro (hv | hv)
      · obtain ⟨f, hf, hfd, hrest⟩ := (h.mem v).mp hv
        refine ⟨f, hf, hfd, ?_⟩
        rw [hother f hf (hfd ▸ hnew v hv)]
        exact hrest
      · split at hv
        · next hdown =>
          obtain rfl := List.mem_singleton.mp hv
          refine ⟨e, he, (RtEntry.rtDst_hitBy _ _ _ _).symm, hdown.2, hup, ?_, ?_⟩
          · rw [hself]
            exact hdown.1
          · rw [hself]
        · exact absurd hv List.not_mem_nil
    · rintro ⟨f, hf, hfd, hmark, hfup, hdown, hseq⟩
      by_cases hd : f.rtDst = e.rtDst
      · obtain rfl := hone f hf hd
        rw [hself] at hdown hseq
        right
        rw [if_pos ⟨hdown, hmark⟩, List.mem_singleton]
        exact Prod.ext (hfd.symm.trans (RtEntry.rtDst_hitBy _ _ _ _).symm) hseq.symm
      · rw [hother f hf hd] at hdown hseq
        exact .inl ((h.mem v).mpr ⟨f, hf, hfd, hmark, hfup, hdown, hseq⟩)
  · by_cases hd : f.rtDst = e.rtDst
    · rw [hone f hf hd]
      exact hev
    · rw [RtEntry.firstError_append, if_neg fun hcf => hd (hcf.1.symm.trans hc.1),
        Option.or_none] at hsome
      exact h.even f hf hfup hfp hsome

/-- The turn of the loop at a destination whose entry does not react. -/
theorem errorEntry_skip (hw : w.toAgent.PathLists) (h : ErrorLoop env.inf x w u s)
    (hnot : ∀ e ∈ w.rtable, e.rtFlags = .up → (e.pathLookup x).isSome = true →
      e.firstError u = none → ¬ e.Concerns c) : errorEntry env x s c = .ok s := by
  have hlookup : s.1.rtLookup c.1 =
      (w.rtLookup c.1).map (RtEntry.afterError env.inf x u) := by
    rw [h.world]
    exact RTable.rtLookup_map (RtEntry.rtDst_afterError _ _ _) _ _
  unfold errorEntry
  cases hl : w.rtLookup c.1 with
  | none =>
    rw [hl, Option.map_none] at hlookup
    simp only [hlookup]
  | some e =>
    rw [hl, Option.map_some] at hlookup
    simp only [hlookup]
    have he : e ∈ w.rtable := List.mem_of_find?_eq_some hl
    have hd := w.rtDst_of_rtLookup hl
    rw [if_neg]
    rintro ⟨hup, hp, hle⟩
    by_cases hc : e.rtFlags = .up ∧ (e.pathLookup x).isSome = true
    · cases hf : e.firstError u with
      | none =>
        rw [RtEntry.afterError_of_none hf] at hle
        exact hnot e he hc.1 hc.2 hf ⟨hd.symm, hle⟩
      | some n =>
        rw [RtEntry.afterError_of_some hc.1 hc.2 hf] at hup hp
        exact RtEntry.not_hit_twice (hw.entry e he).nexthop ⟨hup, hp⟩
    · rw [RtEntry.afterError_of_not hc] at hup hp
      exact hc ⟨hup, hp⟩

/-- The assert on the sequence number fails for some entry. -/
def OddRoute (a : Agent) : Prop := ∃ e ∈ a.rtable, e.rtFlags = .up ∧ e.rtSeqno % 2 ≠ 0

/-- One turn of the loop, while the RERR has room. -/
theorem ErrorLoop.step (hw : w.toAgent.PathLists) (h : ErrorLoop env.inf x w u s)
    (hroom : u.length < eamrpMaxErrors) (c : NsAddr × UInt32) :
    (∃ s', errorEntry env x s c = .ok s' ∧ ErrorLoop env.inf x w (u ++ [c]) s') ∨
      ∃ err, errorEntry env x s c = .error err ∧ err = .errorSeqno ∧ OddRoute w.toAgent := by
  by_cases hhit : ∃ e ∈ w.rtable, e.rtFlags = .up ∧ (e.pathLookup x).isSome = true ∧
      e.firstError u = none ∧ e.Concerns c
  · obtain ⟨e, he, hup, hp, hnone, hc⟩ := hhit
    have hl : s.1.rtLookup c.1 = some e := by
      have hfound : w.rtLookup c.1 = some e := hc.1 ▸ hw.rtLookup_of_mem he
      have hmap : s.1.rtLookup c.1 = (w.rtLookup c.1).map (RtEntry.afterError env.inf x u) := by
        rw [h.world]
        exact RTable.rtLookup_map (RtEntry.rtDst_afterError _ _ _) _ _
      rw [hmap, hfound, Option.map_some, RtEntry.afterError_of_none hnone]
    by_cases hev : e.rtSeqno % 2 = 0
    · exact .inl ⟨_, errorEntry_hit hl hup hp hc.2 hev (hw.entry e he).count
        (h.length.trans_lt hroom), h.hit hw he hup hp hnone hc hev⟩
    · refine .inr ⟨.errorSeqno, ?_, rfl, e, he, hup, hev⟩
      unfold errorEntry
      simp only [hl]
      rw [if_pos ⟨hup, hp, hc.2⟩, if_pos hev]
  · have hnot : ∀ e ∈ w.rtable, e.rtFlags = .up → (e.pathLookup x).isSome = true →
        e.firstError u = none → ¬ e.Concerns c :=
      fun e he hup hp hnone hc => hhit ⟨e, he, hup, hp, hnone, hc⟩
    refine .inl ⟨s, errorEntry_skip hw h hnot, h.skip fun e he hup hp => ?_⟩
    rw [RtEntry.firstError_append]
    cases hf : e.firstError u with
    | none => rw [if_neg (hnot e he hup hp hf), Option.or_none]
    | some n => rfl

variable (env) in
/-- The outcomes of `recvError` for a RERR that fits its arrays: it returns, or the assert on an
entry fails. -/
theorem recvError_cases (p : Packet) {re : HdrError} (hw : w.toAgent.PathLists)
    (hlen : re.length ≤ eamrpMaxErrors) :
    (∃ s, ErrorLoop env.inf p.ih.saddr w re s ∧ recvError env p re w =
        .ok (if 0 < s.2.length then sendError env s.2 true s.1 else s.1)) ∨
      recvError env p re w = .error .errorSeqno ∧ OddRoute w.toAgent := by
  have hstart : ErrorLoop env.inf p.ih.saddr w [] (w, []) := by
    have hid : ∀ e : RtEntry, e.afterError env.inf p.ih.saddr [] = e :=
      fun e => RtEntry.afterError_of_none rfl
    refine ⟨?_, Nat.le_refl _, List.nodup_nil, fun v => ?_, fun e _ _ _ hs => by cases hs⟩
    · have hmap : w.rtable.map (RtEntry.afterError env.inf p.ih.saddr []) = w.rtable := by
        rw [List.map_congr_left fun e _ => hid e, List.map_id']
      rw [hmap]
    · constructor
      · exact fun hv => absurd hv List.not_mem_nil
      · rintro ⟨e, -, -, -, hup, hdown, -⟩
        rw [hid, hup] at hdown
        cases hdown
  have hloop := foldlM_cases (f := errorEntry env p.ih.saddr) (l := re)
    (J := ErrorLoop env.inf p.ih.saddr w)
    (E := fun err => err = .errorSeqno ∧ OddRoute w.toAgent) hstart ?_
  · unfold recvError
    rcases hloop with ⟨s, hs, hend⟩ | ⟨err, herr, rfl, hodd⟩
    · left
      rw [hs]
      exact ⟨s, hend, rfl⟩
    · right
      rw [herr]
      exact ⟨rfl, hodd⟩
  · intro u c v s hl hs
    have hroom : u.length < eamrpMaxErrors := by
      rw [← hl, List.length_append, List.length_cons] at hlen
      omega
    exact hs.step hw hroom c

end Loop

/-! ### What the loop comes to -/

/-- An entry that is up has got its number from an advertisement, so the number is not 0. -/
theorem EntryStep.seqno_ne_zero {env : Env} {a : Agent} {heard : Input} {e e' : RtEntry}
    (h : EntryStep env a heard e e') (he : e.rtFlags = .up → e.rtSeqno ≠ 0) :
    e'.rtFlags = .up → e'.rtSeqno ≠ 0 := by
  cases h with
  | soft h =>
    rw [h.rtFlags, h.rtSeqno]
    exact he
  | touch => exact he
  | refresh => exact he
  | @renew A _ _ _ hs =>
    intro _ (hzero : A.seqno = 0)
    rw [hzero] at hs
    exact absurd hs UInt32.not_lt_zero
  | add => exact he
  | freeze => exact he
  | lose => exact he
  | fail => exact fun hup => by cases (RtEntry.rtFlags_rtDown env.inf _).symm.trans hup
  | hear => exact he
  | withdraw => exact fun hup => by cases (RtEntry.rtFlags_rtDown env.inf _).symm.trans hup
  | purge =>
    obtain ⟨k, -, hpurge⟩ := e.pathPurge_eq env.now
    rw [hpurge]
    exact he
  | expire => exact fun hup => by cases (RtEntry.rtFlags_rtDown env.inf _).symm.trans hup

theorem Agent.Reachable.seqno_ne_zero {a : Agent} (h : a.Reachable) :
    ∀ e ∈ a.rtable, e.rtFlags = .up → e.rtSeqno ≠ 0 := by
  refine h.induct (I := fun a => ∀ e ∈ a.rtable, e.rtFlags = .up → e.rtSeqno ≠ 0) ?_
    fun _ _ _ _ hs hw => hs.forall_entry (fun _ _ => nofun) (fun _ _ hs => hs.seqno_ne_zero) hw
  intro i a hi
  rw [hi]
  exact fun e he => absurd he List.not_mem_nil

namespace RtEntry

/-- The entry is up, and its destination is listed with a number that is not below its own. -/
def Listed (re : HdrError) (e : RtEntry) : Prop := e.rtFlags = .up ∧ ∃ u ∈ re, e.Concerns u

/-- What a RERR from node `x` that lists `re` makes of an entry. -/
structure ErrorHeard (x : NsAddr) (re : HdrError) (e e' : RtEntry) : Prop where
  rtDst : e'.rtDst = e.rtDst
  unlisted : ¬ e.Listed re → e' = e
  paths : e.Listed re →
    e'.rtPathList = e.rtPathList.filter (fun p => decide (p.nexthop ≠ x))
  flags : e.rtFlags = .up → e'.rtFlags = if e'.rtPathList = [] then .down else .up
  seqno : e.rtFlags = .up → e'.rtFlags = .down →
    ∃ n, e.firstError re = some n ∧ n ≤ e'.rtSeqno ∧ e.rtSeqno < e'.rtSeqno

variable {inf : Infinity} {x : NsAddr} {re : HdrError} {e : RtEntry} {n : Int}

theorem firstError_none_iff : e.firstError re = none ↔ ∀ u ∈ re, ¬ e.Concerns u := by
  rw [firstError, Option.map_eq_none_iff, List.find?_eq_none]
  simp

theorem concerns_of_firstError {m : UInt32} (h : e.firstError re = some m) :
    ∃ u ∈ re, e.Concerns u ∧ u.2 = m := by
  obtain ⟨u, hu, rfl⟩ := Option.map_eq_some_iff.mp h
  exact ⟨u, List.mem_of_find?_eq_some hu, of_decide_eq_true (List.find?_some hu :), rfl⟩

/-- An entry that does not react keeps everything, and that is what is asked of it. -/
theorem errorHeard_self (hwf : e.WellFormed n) (hpaths : e.Listed re → e.pathLookup x = none) :
    e.ErrorHeard x re e := by
  refine ⟨rfl, fun _ => rfl, fun hl => ?_, fun hup => ?_, fun hup hd => ?_⟩
  · symm
    apply List.filter_eq_self.mpr
    intro p hp
    have := List.find?_eq_none.mp (hpaths hl) p hp
    simpa using this
  · rw [hup, if_neg (hwf.up_iff.mp hup)]
  · cases hup.symm.trans hd

theorem errorHeard_hitBy {m : UInt32} (hwf : e.WellFormed n) (hup : e.rtFlags = .up)
    (hpos : e.rtSeqno ≠ 0) (hev : e.rtSeqno % 2 = 0) (hm : e.firstError re = some m)
    (hodd : ∀ u ∈ re, u.2 % 2 = 1 ∨ u.2 = 0) : e.ErrorHeard x re (e.hitBy inf x m) := by
  obtain ⟨u, hu, hc, rfl⟩ := concerns_of_firstError hm
  have hfilter := rtPathList_pathDelete x hwf.nexthop
  refine ⟨rtDst_hitBy _ _ _ _, fun hn => absurd ⟨hup, u, hu, hc⟩ hn, fun _ => ?_, fun _ => ?_,
    fun _ hdown => ?_⟩
  · rw [← hfilter]
    unfold hitBy
    split
    · next hnil =>
      rw [hnil, withdrawn, rtDown_eq]
      exact fun hd => by cases hup.symm.trans hd
    · rfl
  · unfold hitBy
    split
    · next hnil =>
      have hempty : (((e.pathDelete x).heardError u.2).withdrawn inf).rtPathList = [] := by
        rw [withdrawn, rtDown_eq]
        exact fun hd => by cases hup.symm.trans hd
      rw [hempty, if_pos rfl]
      exact rtFlags_rtDown _ _
    · next hne =>
      have hne' : ((e.pathDelete x).heardError u.2).rtPathList ≠ [] := hne
      rw [if_neg hne']
      exact hup
  · have hseq : (e.hitBy inf x u.2).rtSeqno = macroMax e.rtHighestSeqnoHeard u.2 := by
      unfold hitBy at hdown ⊢
      split
      · exact rtSeqno_rtDown _ _
      · next hne =>
        rw [if_neg hne] at hdown
        cases hup.symm.trans hdown
    have hmax : u.2 ≤ macroMax e.rtHighestSeqnoHeard u.2 := by
      unfold macroMax
      split
      · next hlt => exact UInt32.le_of_lt hlt
      · exact UInt32.le_refl _
    have hlt : e.rtSeqno < u.2 := by
      have hle := hc.2
      rcases hodd u hu with ho | ho
      · grind
      · grind
    rw [hseq]
    exact ⟨u.2, hm, hmax, UInt32.lt_of_lt_of_le hlt hmax⟩

end RtEntry

/-- What the loop leaves of every entry. -/
theorem ErrorLoop.errorHeard {inf : Infinity} {x : NsAddr} {w : World} {re : HdrError}
    {s : World × HdrError} (h : ErrorLoop inf x w re s) (hw : w.toAgent.PathLists)
    (hpos : ∀ e ∈ w.rtable, e.rtFlags = .up → e.rtSeqno ≠ 0)
    (hodd : ∀ u ∈ re, u.2 % 2 = 1 ∨ u.2 = 0) {e : RtEntry} (he : e ∈ w.rtable) :
    e.ErrorHeard x re (e.afterError inf x re) := by
  have hwf := hw.entry e he
  by_cases hc : e.rtFlags = .up ∧ (e.pathLookup x).isSome = true
  · cases hf : e.firstError re with
    | none =>
      rw [RtEntry.afterError_of_none hf]
      refine RtEntry.errorHeard_self hwf fun hl => ?_
      obtain ⟨-, u, hu, hcu⟩ := hl
      exact absurd hcu (RtEntry.firstError_none_iff.mp hf u hu)
    | some m =>
      rw [RtEntry.afterError_of_some hc.1 hc.2 hf]
      exact RtEntry.errorHeard_hitBy hwf hc.1 (hpos e he hc.1)
        (h.even e he hc.1 hc.2 (by rw [hf]; rfl)) hf hodd
  · rw [RtEntry.afterError_of_not hc]
    refine RtEntry.errorHeard_self hwf fun hl => ?_
    exact Option.not_isSome_iff_eq_none.mp fun hp => hc ⟨hl.1, hp⟩

namespace Agent

/-- The entry was up and is down now. -/
def GoesDown (w' : World) (e : RtEntry) : Prop :=
  e.rtFlags = .up ∧ ∃ e', w'.rtLookup e.rtDst = some e' ∧ e'.rtFlags = .down

/-- A RERR is passed on about exactly the marked entries that have gone down. -/
structure PassesOn (a : Agent) (w' : World) : Prop where
  silent : (∀ e ∈ a.rtable, e.rtError = true → ¬ GoesDown w' e) → w'.out = []
  rerr : (∃ e ∈ a.rtable, e.rtError = true ∧ GoesDown w' e) →
    ∃ p delay nre, w'.out = [.target p delay] ∧ p.body = .rerr nre ∧
      nre.length ≤ eamrpMaxErrors ∧ (nre.map Prod.fst).Nodup ∧
      ∀ v, v ∈ nre ↔ ∃ e ∈ a.rtable, e.rtDst = v.1 ∧ e.rtError = true ∧ GoesDown w' e ∧
        ∃ e', w'.rtLookup v.1 = some e' ∧ e'.rtSeqno = v.2

theorem passesOn_of_errorLoop {a : Agent} (ha : a.PathLists) {env : Env} {x : NsAddr}
    {re : HdrError} {s : World × HdrError} (h : ErrorLoop env.inf x a.world re s)
    (hlen : re.length ≤ eamrpMaxErrors) :
    a.PassesOn (if 0 < s.2.length then sendError env s.2 true s.1 else s.1) := by
  have hlookup : ∀ e ∈ a.rtable, s.1.rtLookup e.rtDst = some (e.afterError env.inf x re) := by
    intro e he
    have hmap : s.1.rtLookup e.rtDst =
        (a.rtable.rtLookup e.rtDst).map (RtEntry.afterError env.inf x re) := by
      rw [h.world]
      exact RTable.rtLookup_map (RtEntry.rtDst_afterError _ _ _) _ _
    rw [hmap, ha.rtLookup_of_mem he, Option.map_some]
  have hdown : ∀ e ∈ a.rtable, (GoesDown s.1 e ↔
      e.rtFlags = .up ∧ (e.afterError env.inf x re).rtFlags = .down) := by
    intro e he
    constructor
    · rintro ⟨hup, e', he', hd⟩
      obtain rfl := Option.some.inj ((hlookup e he).symm.trans he')
      exact ⟨hup, hd⟩
    · rintro ⟨hup, hd⟩
      exact ⟨hup, _, hlookup e he, hd⟩
  have hlist : ∀ v, v ∈ s.2 ↔ ∃ e ∈ a.rtable, e.rtDst = v.1 ∧ e.rtError = true ∧ GoesDown s.1 e ∧
      ∃ e', s.1.rtLookup v.1 = some e' ∧ e'.rtSeqno = v.2 := by
    intro v
    rw [h.mem]
    constructor
    · rintro ⟨e, he, hd, hmark, hup, hdn, hseq⟩
      exact ⟨e, he, hd, hmark, (hdown e he).mpr ⟨hup, hdn⟩, _, hd ▸ hlookup e he, hseq⟩
    · rintro ⟨e, he, hd, hmark, hgoes, e', he', hseq⟩
      obtain ⟨hup, hdn⟩ := (hdown e he).mp hgoes
      obtain rfl := Option.some.inj ((hlookup e he).symm.trans (hd ▸ he'))
      exact ⟨e, he, hd, hmark, hup, hdn, hseq⟩
  have hout : s.1.out = [] := by rw [h.world]; rfl
  split
  · next hpos =>
    refine ⟨fun hnone => ?_, fun _ => ?_⟩
    · obtain ⟨v, hv⟩ := List.exists_mem_of_length_pos hpos
      obtain ⟨e, he, -, hmark, hgoes, -⟩ := (hlist v).mp hv
      exact absurd hgoes (hnone e he hmark)
    · have hsent : ∃ p delay, (sendError env s.2 true s.1).out = [.target p delay] ∧
          p.body = .rerr s.2 := by
        unfold sendError World.send World.emit
        rw [hout]
        exact ⟨_, _, rfl, rfl⟩
      obtain ⟨p, delay, hp, hbody⟩ := hsent
      exact ⟨p, delay, s.2, hp, hbody, h.length.trans hlen, h.nodup, hlist⟩
  · next hnil =>
    refine ⟨fun _ => hout, fun hsome => ?_⟩
    obtain ⟨e, he, hmark, hgoes⟩ := hsome
    have hgone := hgoes
    obtain ⟨-, e', he', -⟩ := hgone
    have hv := (hlist (e.rtDst, e'.rtSeqno)).mpr ⟨e, he, rfl, hmark, hgoes, e', he', rfl⟩
    exact absurd (List.length_pos_of_mem hv) hnil

/-- The agent is a node of some network of such agents. -/
def Networked (a : Agent) : Prop := ∃ P s i, Net.Reachable P s ∧ s.node i = a

/-- In a network the assert of `recvError` holds. -/
theorem Networked.not_oddRoute {a : Agent} (h : a.Networked) : ¬ OddRoute a := by
  obtain ⟨P, s, i, hs, rfl⟩ := h
  rintro ⟨e, he, hup, hodd⟩
  have hlook : s.entry i e.rtDst = some e := (hs.agent i).pathLists.rtLookup_of_mem he
  have hpar := hs.proto.parity.route i e.rtDst _ (Net.route_proto hlook)
  exact hodd (hpar.up (by simp [RtEntry.route, hup])).1

/-- The effect of a received RERR: in a reachable state a RERR that fits its arrays and lists
numbers that are odd or 0 is handled without overflow, every entry hears the error as it
should, and what is passed on are the marked entries that have gone down. Otherwise the assert
on the number of an entry stops the agent, which no network of such agents can bring about. -/
theorem error_received {a : Agent} (h : a.Reachable) (env : Env) (p : Packet) {re : HdrError}
    (hlen : re.length ≤ eamrpMaxErrors) (hodd : ∀ u ∈ re, u.2 % 2 = 1 ∨ u.2 = 0) :
    (∃ w', recvError env p re a.world = .ok w' ∧
        List.Forall₂ (RtEntry.ErrorHeard p.ih.saddr re) a.rtable w'.rtable ∧ a.PassesOn w') ∨
      recvError env p re a.world = .error .errorSeqno ∧ OddRoute a ∧ ¬ a.Networked := by
  rcases recvError_cases env p (w := a.world) h.pathLists hlen with
    ⟨s, hs, hok⟩ | ⟨herr, hbad⟩
  · refine .inl ⟨_, hok, ?_, passesOn_of_errorLoop h.pathLists hs hlen⟩
    have htable : (if 0 < s.2.length then sendError env s.2 true s.1 else s.1).rtable =
        a.rtable.map (RtEntry.afterError env.inf p.ih.saddr re) := by
      have hw : s.1.rtable = a.rtable.map (RtEntry.afterError env.inf p.ih.saddr re) := by
        rw [hs.world]
        rfl
      split
      · exact hw
      · exact hw
    rw [htable, List.forall₂_map_right_iff, List.forall₂_same]
    exact fun e he => hs.errorHeard h.pathLists h.seqno_ne_zero hodd he
  · exact .inr ⟨herr, hbad, fun hnet => hnet.not_oddRoute hbad⟩

/-- Node 2 hears from its neighbour that node 10 cannot be reached any more. -/
theorem error_received_crowd :
    ∃ w', recvError { now := 1, inf := .mathH } { ih := { saddr := 3 }, body := .rerr [(10, 3)] }
        [(10, 3)] (final (idle 2) (crowd 2)).toAgent.world = .ok w' ∧
      List.Forall₂ (RtEntry.ErrorHeard 3 [(10, 3)]) (final (idle 2) (crowd 2)).toAgent.rtable
        w'.rtable ∧ (final (idle 2) (crowd 2)).toAgent.PassesOn w' := by
  have hreach : (final (idle 2) (crowd 2)).toAgent.Reachable :=
    ⟨_, ⟨_, run_idle (by decide +kernel)⟩, rfl⟩
  have heven : ¬ ∃ e ∈ (final (idle 2) (crowd 2)).toAgent.rtable,
      e.rtFlags = .up ∧ e.rtSeqno % 2 ≠ 0 := by decide +kernel
  have hlen : ([(10, 3)] : HdrError).length ≤ eamrpMaxErrors := by decide
  have hnum : ∀ u ∈ ([(10, 3)] : HdrError), u.2 % 2 = 1 ∨ u.2 = 0 := by decide
  rcases error_received hreach { now := 1, inf := .mathH }
    { ih := { saddr := 3 }, body := .rerr [(10, 3)] } hlen hnum with
    hok | ⟨-, hodd, -⟩
  · exact hok
  · exact absurd hodd heven

end Agent

end Eamrp
