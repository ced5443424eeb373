import Mathlib

/-!
# Sweeps over keyed tables

A table is a list of rows with distinct keys. A loop over the keys that rewrites one row at a
time visits every row as it was before the loop, and leaves a table that corresponds to the
old one row by row.
-/

namespace Eamrp.Lib

universe u v w

variable {α : Type u} {κ : Type v} [DecidableEq κ] {key : α → κ}

/-- Overwrite the rows under the key of `y`. -/
def put (key : α → κ) (y : α) (l : List α) : List α :=
  l.map fun x => if key x = key y then y else x

/-- Rows under other keys stay. -/
theorem put_of_notMem {y : α} {l : List α} (h : key y ∉ l.map key) : put key y l = l := by
  have hid : put key y l = l.map id := by
    apply List.map_congr_left
    intro x hx
    rw [if_neg, id]
    intro heq
    exact h (heq ▸ List.mem_map.mpr ⟨x, hx, rfl⟩)
  rw [hid, List.map_id]

/-- Overwriting one row of a table. -/
theorem put_append {x y : α} {u v : List α} (hnd : ((u ++ x :: v).map key).Nodup)
    (hy : key y = key x) : put key y (u ++ x :: v) = u ++ y :: v := by
  rw [List.map_append, List.map_cons] at hnd
  have hsplit := List.nodup_middle.mp hnd
  have hnot : key x ∉ u.map key ++ v.map key := (List.nodup_cons.mp hsplit).1
  rw [List.mem_append, not_or] at hnot
  have hu : put key y u = u := put_of_notMem (hy ▸ hnot.1)
  have hv : put key y v = v := put_of_notMem (hy ▸ hnot.2)
  have hsum : put key y (u ++ x :: v) = put key y u ++ y :: put key y v := by
    simp [put, hy]
  rw [hsum, hu, hv]

/-- Rows that correspond by a function. -/
theorem eq_map_of_forall₂ {g : α → α} {l l' : List α}
    (h : List.Forall₂ (fun x y => y = g x) l l') : l' = l.map g := by
  induction h with
  | nil => rfl
  | cons hxy _ ih => rw [hxy, ih, List.map_cons]

/-- Every row of the second table corresponds to one of the first. -/
theorem exists_of_forall₂ {R : α → α → Prop} {l l' : List α} (h : List.Forall₂ R l l') {y : α}
    (hy : y ∈ l') : ∃ x ∈ l, R x y := by
  induction h with
  | nil => exact absurd hy List.not_mem_nil
  | @cons x z l l' hxz _ ih =>
    rcases List.mem_cons.mp hy with rfl | hy
    · exact ⟨x, List.mem_cons_self .., hxz⟩
    · obtain ⟨x', hx', hxy⟩ := ih hy
      exact ⟨x', List.mem_cons_of_mem _ hx', hxy⟩

/-- Correspondences row by row compose. -/
theorem forall₂_trans {R S T : α → α → Prop} (hT : ∀ {x y z}, R x y → S y z → T x z)
    {l l' l'' : List α} (h : List.Forall₂ R l l') (h' : List.Forall₂ S l' l'') :
    List.Forall₂ T l l'' := by
  induction h generalizing l'' with
  | nil =>
    cases h'
    exact .nil
  | cons hxy _ ih =>
    cases h' with
    | cons hyz h' => exact .cons (hT hxy hyz) (ih h')

/-! ### Taking rows out -/

/-- In a table there is one row at most under a key. -/
theorem eraseP_eq_filter {l : List α} (hnd : (l.map key).Nodup) (k : κ) :
    l.eraseP (fun x => key x == k) = l.filter (fun x => decide (key x ≠ k)) := by
  induction l with
  | nil => rfl
  | cons x l ih =>
    rw [List.map_cons, List.nodup_cons] at hnd
    by_cases hx : key x = k
    · have hrest : l.filter (fun x => decide (key x ≠ k)) = l := by
        apply List.filter_eq_self.mpr
        intro y hy
        apply decide_eq_true
        rintro rfl
        exact hnd.1 (hx ▸ List.mem_map_of_mem hy)
      rw [List.eraseP_cons_of_pos (by simpa using hx), List.filter_cons_of_neg (by simpa using hx),
        hrest]
    · rw [List.eraseP_cons_of_neg (by simpa using hx), List.filter_cons_of_pos (by simpa using hx),
        ih hnd.2]

/-- In a filtered table a lookup finds what it found before, if that passes. -/
theorem find?_filter_key {l : List α} (hnd : (l.map key).Nodup) (q : α → Bool) (k : κ) :
    (l.filter q).find? (fun x => key x == k) = (l.find? fun x => key x == k).filter q := by
  induction l with
  | nil => rfl
  | cons x l ih =>
    rw [List.map_cons, List.nodup_cons] at hnd
    have ih := ih hnd.2
    by_cases hx : key x = k
    · have hnone : l.find? (fun y => key y == k) = none := by
        refine List.find?_eq_none.mpr fun y hy heq => hnd.1 ?_
        rw [hx, ← beq_iff_eq.mp heq]
        exact List.mem_map_of_mem hy
      rw [hnone] at ih
      rw [List.find?_cons_of_pos (by simpa using hx), Option.filter_some]
      by_cases hq : q x = true
      · rw [List.filter_cons_of_pos hq, List.find?_cons_of_pos (by simpa using hx), if_pos hq]
      · rw [List.filter_cons_of_neg hq, if_neg hq, ih]
        rfl
    · rw [List.find?_cons_of_neg (by simpa using hx), ← ih]
      by_cases hq : q x = true
      · rw [List.filter_cons_of_pos hq, List.find?_cons_of_neg (by simpa using hx)]
      · rw [List.filter_cons_of_neg hq]

variable {q : α → Bool} {l : List α}

/-- Taking the first element out that passes a test: the others keep their order. -/
theorem filter_of_find? {x : α} (h : l.find? q = some x) :
    l.filter q = x :: (l.eraseP q).filter q ∧
      (l.eraseP q).filter (fun y => !q y) = l.filter fun y => !q y := by
  obtain ⟨hx, l₁, l₂, rfl, hno⟩ := List.find?_eq_some_iff_append.mp h
  have hno : ∀ y ∈ l₁, ¬ q y = true := fun y hy => by simpa using hno y hy
  have herase : (l₁ ++ x :: l₂).eraseP q = l₁ ++ l₂ := by
    rw [List.eraseP_append_right _ hno, List.eraseP_cons_of_pos hx]
  have hnil : l₁.filter q = [] := List.filter_eq_nil_iff.mpr hno
  rw [herase]
  constructor
  · rw [List.filter_append, List.filter_append, hnil, List.filter_cons_of_pos hx]
    rfl
  · rw [List.filter_append, List.filter_append, List.filter_cons_of_neg (by simp [hx])]

theorem filter_of_find?_none (h : l.find? q = none) :
    l.filter q = [] ∧ l.filter (fun y => !q y) = l := by
  have hno := List.find?_eq_none.mp h
  refine ⟨List.filter_eq_nil_iff.mpr hno, List.filter_eq_self.mpr fun y hy => ?_⟩
  simpa using hno y hy

section Sweep

variable {σ : Type w} {ε : Type w} {tbl : σ → List α} {f : σ → κ → Except ε σ}
  {R : α → α → Prop} {I : List α → σ → Prop} {E : List α → α → ε → Prop}

private theorem sweep_from {u u' v : List α} {s : σ} (hl : u ++ v = l) (ht : tbl s = u' ++ v)
    (hu : List.Forall₂ R u u') (hnd : ((u' ++ v).map key).Nodup) (hI : I u s)
    (hstep : ∀ u x v s, u ++ x :: v = l → I u s → x ∈ tbl s → ((tbl s).map key).Nodup →
      (∃ s' y, f s (key x) = .ok s' ∧ key y = key x ∧ tbl s' = put key y (tbl s) ∧ R x y ∧
        I (u ++ [x]) s') ∨ ∃ err, f s (key x) = .error err ∧ E u x err) :
    (∃ s', (v.map key).foldlM f s = .ok s' ∧ List.Forall₂ R l (tbl s') ∧ I l s') ∨
      ∃ a x b err, l = a ++ x :: b ∧ (v.map key).foldlM f s = .error err ∧ E a x err := by
  induction v generalizing u u' s with
  | nil =>
    rw [List.append_nil] at hl ht
    subst hl
    exact .inl ⟨s, rfl, by rwa [ht], hI⟩
  | cons x v ih =>
    have hx : x ∈ tbl s := by
      rw [ht]
      exact List.mem_append_right _ (List.mem_cons_self ..)
    rw [List.map_cons, List.foldlM_cons]
    rcases hstep u x v s hl hI hx (by rwa [ht]) with
      ⟨s', y, hs', hy, ht', hR, hI'⟩ | ⟨err, herr, hE⟩
    · rw [ht, put_append hnd hy] at ht'
      have hl' : (u ++ [x]) ++ v = l := by rw [← hl, List.append_assoc]; rfl
      have ht'' : tbl s' = (u' ++ [y]) ++ v := by rw [ht', List.append_assoc]; rfl
      have hnd' : (((u' ++ [y]) ++ v).map key).Nodup := by
        rw [List.append_assoc]
        simpa [hy] using hnd
      have hR' : List.Forall₂ R (u ++ [x]) (u' ++ [y]) := List.rel_append hu (.cons hR .nil)
      rw [hs']
      exact ih hl' ht'' hR' hnd' hI'
    · refine .inr ⟨u, x, v, err, hl.symm, ?_, hE⟩
      rw [herr]
      rfl

variable (key tbl) in
/-- A loop over the keys of a table `l`. Each turn either rewrites the row it is at, as `R`
says, or faults, as `E` says with the rows before it; `I` relates the rows passed, as they
were, to the state. -/
theorem sweep {s : σ} (hl : tbl s = l) (hnd : (l.map key).Nodup) (hI : I [] s)
    (hstep : ∀ u x v s, u ++ x :: v = l → I u s → x ∈ tbl s → ((tbl s).map key).Nodup →
      (∃ s' y, f s (key x) = .ok s' ∧ key y = key x ∧ tbl s' = put key y (tbl s) ∧ R x y ∧
        I (u ++ [x]) s') ∨ ∃ err, f s (key x) = .error err ∧ E u x err) :
    (∃ s', (l.map key).foldlM f s = .ok s' ∧ List.Forall₂ R l (tbl s') ∧ I l s') ∨
      ∃ a x b err, l = a ++ x :: b ∧ (l.map key).foldlM f s = .error err ∧ E a x err :=
  sweep_from (List.nil_append l) (hl.trans (List.nil_append l).symm) .nil hnd hI hstep

end Sweep

end Eamrp.Lib
