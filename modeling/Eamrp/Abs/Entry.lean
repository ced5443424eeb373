import Eamrp.Abs.Step

/-!
# Path-list operations on one entry

What the operations of `eamrp_rt_entry` do to the list of paths, its count and the extremal
hop counts, stated on lists.
-/

namespace Eamrp

namespace RtEntry

/-! ### Purging -/

private theorem filter_eraseP_self (q : Path → Bool) (l : List Path) :
    (l.eraseP q).filter (fun p => !q p) = l.filter (fun p => !q p) := by
  induction l with
  | nil => rfl
  | cons a l ih => by_cases h : q a <;> simp [h, ih]

private theorem pathPurgeLoop_eq (now : Time) (n : Nat) (e : RtEntry)
    (hl : e.rtPathList.length ≤ n) :
    ∃ k : Nat, (pathPurgeLoop now n e).rtPathList.length + k = e.rtPathList.length ∧
      pathPurgeLoop now n e = { e with
        rtPathList := e.rtPathList.filter (fun p => !decide (p.expire < now))
        rtNumPaths := e.rtNumPaths - k
        pathsDeleted := e.pathsDeleted + k } := by
  induction n generalizing e with
  | zero =>
    have hnil : e.rtPathList = [] := List.length_eq_zero_iff.mp (by omega)
    exact ⟨0, by simp [pathPurgeLoop], by cases e; simp_all [pathPurgeLoop]⟩
  | succ n ih =>
    unfold pathPurgeLoop
    split
    · next hany =>
      obtain ⟨p, hp, hx⟩ := List.any_eq_true.mp hany
      have hlen : (e.pathPurgeOne now).rtPathList.length + 1 = e.rtPathList.length := by
        have h1 := List.length_eraseP_of_mem hp (p := fun p => decide (p.expire < now)) hx
        have h2 := List.length_pos_of_mem hp
        simp only [pathPurgeOne, h1]
        omega
      obtain ⟨k, hk, he⟩ := ih (e.pathPurgeOne now) (by omega)
      refine ⟨k + 1, by omega, ?_⟩
      rw [he]
      simp only [pathPurgeOne, filter_eraseP_self]
      congr 1
      · push_cast; omega
      · omega
    · next hany =>
      refine ⟨0, by simp, ?_⟩
      have hall : e.rtPathList.filter (fun p => !decide (p.expire < now)) = e.rtPathList := by
        apply List.filter_eq_self.mpr
        intro p hp
        by_contra hx
        exact hany (List.any_eq_true.mpr ⟨p, hp, by simpa using hx⟩)
      rw [hall]
      cases e
      simp

/-- What `path_purge` leaves: the unexpired paths in their order, the count lowered by the
number of paths removed, and nothing else changed. -/
theorem pathPurge_eq (now : Time) (e : RtEntry) :
    ∃ k : Nat, (e.pathPurge now).rtPathList.length + k = e.rtPathList.length ∧
      e.pathPurge now = { e with
        rtPathList := e.rtPathList.filter (fun p => !decide (p.expire < now))
        rtNumPaths := e.rtNumPaths - k
        pathsDeleted := e.pathsDeleted + k } :=
  pathPurgeLoop_eq now _ e le_rfl

/-- The paths that `path_purge` leaves. -/
theorem rtPathList_pathPurge (now : Time) (e : RtEntry) :
    (e.pathPurge now).rtPathList = e.rtPathList.filter (fun p => !decide (p.expire < now)) := by
  obtain ⟨k, -, h⟩ := e.pathPurge_eq now
  rw [h]

/-! ### Deleting by next hop -/

/-- `path_delete(id)` keeps the count in step with the list. -/
theorem pathDelete_count {e : RtEntry} (id : NsAddr)
    (h : e.rtNumPaths = e.rtPathList.length) :
    (e.pathDelete id).rtNumPaths = (e.pathDelete id).rtPathList.length := by
  simp only [pathDelete]
  by_cases hs : (e.pathLookup id).isSome = true
  · obtain ⟨p, hp⟩ := Option.isSome_iff_exists.mp hs
    have hm := List.mem_of_find?_eq_some hp
    have hq : (p.nexthop == id) = true := by
      rw [pathLookup] at hp
      exact List.find?_some (p := fun p : Path => p.nexthop == id) hp
    have hl := List.length_eraseP_of_mem hm (p := fun p => p.nexthop == id) hq
    have hpos := List.length_pos_of_mem hm
    rw [if_pos hs, hl, h]
    omega
  · have hn := List.find?_eq_none.mp (Option.not_isSome_iff_eq_none.mp hs)
    rw [if_neg hs, List.eraseP_of_forall_not hn, h]

/-- The three outcomes of `path_empty`. -/
theorem pathEmpty_cases (e : RtEntry) :
    (e.pathEmpty = .ok true ∧ e.rtPathList = []) ∨ (e.pathEmpty = .ok false ∧ e.rtPathList ≠ []) ∨
      ∃ f, e.pathEmpty = .error f ∧ (f = .pathCountPositive ∨ f = .pathCountZero) ∧
        e.rtNumPaths ≠ e.rtPathList.length := by
  unfold pathEmpty
  cases hl : e.rtPathList with
  | nil =>
    by_cases h : e.rtNumPaths = 0
    · exact .inl ⟨by simp [h], rfl⟩
    · exact .inr (.inr ⟨_, by simp [h], .inr rfl, by simpa using h⟩)
  | cons p ps =>
    by_cases h : 0 < e.rtNumPaths
    · exact .inr (.inl ⟨by simp [h], by simp⟩)
    · refine .inr (.inr ⟨_, by simp [h], .inl rfl, ?_⟩)
      rw [List.length_cons]
      omega

/-- `rt_down` on an entry that is not down. -/
theorem rtDown_eq {inf : Infinity} {e : RtEntry} (h : e.rtFlags ≠ .down) :
    e.rtDown inf = { e with
      rtFlags := .down
      rtAdvertisedHops := inf.toU16
      rtPathList := []
      rtNumPaths := 0
      pathsDeleted := e.pathsDeleted + e.rtPathList.length
      rtExpire := 0 } := by
  simp [rtDown, h, pathDeleteAll]

@[simp] theorem rtFlags_rtDown (inf : Infinity) (e : RtEntry) :
    (e.rtDown inf).rtFlags = .down := by
  by_cases h : e.rtFlags = .down
  · simp [rtDown, h]
  · simp [rtDown_eq h]

@[simp] theorem rtDst_rtDown (inf : Infinity) (e : RtEntry) :
    (e.rtDown inf).rtDst = e.rtDst := by
  by_cases h : e.rtFlags = .down
  · simp [rtDown, h]
  · simp [rtDown_eq h]

@[simp] theorem rtSeqno_rtDown (inf : Infinity) (e : RtEntry) :
    (e.rtDown inf).rtSeqno = e.rtSeqno := by
  by_cases h : e.rtFlags = .down
  · simp [rtDown, h]
  · simp [rtDown_eq h]

@[simp] theorem rtError_rtDown (inf : Infinity) (e : RtEntry) :
    (e.rtDown inf).rtError = e.rtError := by
  by_cases h : e.rtFlags = .down
  · simp [rtDown, h]
  · simp [rtDown_eq h]

end RtEntry

/-! ### Extremal hop counts -/

/-- A loop that keeps the larger value ends with the largest one. -/
theorem foldl_max_spec {α : Type} (f : α → UInt16) (l : List α) (a : UInt16) :
    let m := l.foldl (fun m x => if m < f x then f x else m) a
    a ≤ m ∧ (∀ x ∈ l, f x ≤ m) ∧ (m = a ∨ ∃ x ∈ l, f x = m) := by
  induction l generalizing a with
  | nil => simp
  | cons p l ih =>
    simp only [List.foldl_cons]
    obtain ⟨h1, h2, h3⟩ := ih (if a < f p then f p else a)
    refine ⟨?_, ?_, ?_⟩
    · by_cases h : a < f p
      · rw [if_pos h] at h1 ⊢; exact UInt16.le_trans (UInt16.le_of_lt h) h1
      · rw [if_neg h] at h1 ⊢; exact h1
    · intro q hq
      rcases List.mem_cons.mp hq with rfl | hq
      · by_cases h : a < f q
        · rw [if_pos h] at h1 ⊢; exact h1
        · rw [if_neg h] at h1 ⊢; exact UInt16.le_trans (UInt16.not_lt.mp h) h1
      · exact h2 q hq
    · rcases h3 with h3 | ⟨q, hq, h3⟩
      · by_cases h : a < f p
        · rw [if_pos h] at h3 ⊢; exact .inr ⟨p, by simp, h3.symm⟩
        · rw [if_neg h] at h3 ⊢; exact .inl h3
      · exact .inr ⟨q, List.mem_cons_of_mem _ hq, h3⟩

end Eamrp
