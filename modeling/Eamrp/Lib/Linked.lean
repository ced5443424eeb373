import Mathlib

/-!
# Singly linked lists

`Linked next a l` says that following `next` from the link `a` visits the list `l` and then
finds the empty link. The list is determined by the link, so it never visits a place twice;
writing a link outside the list keeps it, and three writes matter: appending behind the last
place, unlinking the place behind another one, and moving the first link on.
-/

namespace Eamrp.Lib

universe u

variable {α : Type u}

/-- Following `next` from `a` visits `l` and ends. -/
def Linked (next : α → Option α) : Option α → List α → Prop
  | a, [] => a = none
  | a, x :: l => a = some x ∧ Linked next (next x) l

namespace Linked

variable {next next' : α → Option α} {a : Option α} {x y : α} {l l' u v : List α}

/-- The first link points to the first place. -/
theorem head (h : Linked next a l) : a = l.head? := by
  cases l with
  | nil => exact h
  | cons x l => exact h.1

/-- A list is determined by its first link. -/
theorem unique (h : Linked next a l) (h' : Linked next a l') : l = l' := by
  induction l generalizing a l' with
  | nil =>
    cases l' with
    | nil => rfl
    | cons y l' => exact absurd (h.symm.trans h'.1) (by simp)
  | cons x l ih =>
    cases l' with
    | nil => exact absurd (h'.symm.trans h.1) (by simp)
    | cons y l' =>
      obtain rfl : x = y := Option.some.inj (h.1.symm.trans h'.1)
      rw [ih h.2 h'.2]

/-- The rest of a list from one of its places on. -/
theorem suffix (h : Linked next a (u ++ x :: v)) : Linked next (some x) (x :: v) := by
  induction u generalizing a with
  | nil => exact ⟨rfl, h.2⟩
  | cons y u ih => exact ih h.2

/-- No place is visited twice. -/
theorem nodup (h : Linked next a l) : l.Nodup := by
  induction l generalizing a with
  | nil => exact List.nodup_nil
  | cons x l ih =>
    refine List.nodup_cons.mpr ⟨fun hx => ?_, ih h.2⟩
    obtain ⟨u, v, rfl⟩ := List.append_of_mem hx
    -- the list from the second visit on would be the list from the first one on
    have hwhole : Linked next (some x) (x :: (u ++ x :: v)) := ⟨rfl, h.2⟩
    have hlen := congrArg List.length ((suffix h.2).unique hwhole)
    simp only [List.length_cons, List.length_append] at hlen
    omega

/-- Writing links outside the list keeps it. -/
theorem frame (h : Linked next a l) (hn : ∀ x ∈ l, next' x = next x) : Linked next' a l := by
  induction l generalizing a with
  | nil => exact h
  | cons x l ih =>
    refine ⟨h.1, ?_⟩
    rw [hn x (List.mem_cons_self ..)]
    exact ih h.2 fun y hy => hn y (List.mem_cons_of_mem _ hy)

/-- The last place of a list is followed by no other. -/
theorem eq_nil_of_getLast? (h : Linked next a (u ++ x :: v))
    (hlast : (u ++ x :: v).getLast? = some x) : v = [] := by
  rcases List.eq_nil_or_concat v with rfl | ⟨v, z, rfl⟩
  · rfl
  · have hsplit : u ++ x :: v.concat z = (u ++ x :: v) ++ [z] := by simp
    rw [hsplit, List.getLast?_concat] at hlast
    obtain rfl : z = x := Option.some.inj hlast
    have hnd := h.nodup
    rw [hsplit] at hnd
    simp [List.nodup_append] at hnd

variable [DecidableEq α]

/-- Writing the link of one place outside the list. -/
theorem update_of_notMem {b : Option α} (h : Linked next a l) (hx : x ∉ l) :
    Linked (Function.update next x b) a l :=
  h.frame fun _ hy => Function.update_of_ne (ne_of_mem_of_not_mem hy hx) _ _

/-- Unlinking the place behind `y`. -/
theorem unlink (h : Linked next a (u ++ y :: x :: v)) :
    Linked (Function.update next y (next x)) a (u ++ y :: v) := by
  have hnd := h.nodup
  induction u generalizing a with
  | nil =>
    refine ⟨h.1, ?_⟩
    rw [Function.update_self]
    refine h.2.2.update_of_notMem fun hy => ?_
    exact (List.nodup_cons.mp hnd).1 (List.mem_cons_of_mem _ hy)
  | cons z u ih =>
    have hz : z ≠ y := by
      rintro rfl
      exact (List.nodup_cons.mp hnd).1 (by simp)
    refine ⟨h.1, ?_⟩
    rw [Function.update_of_ne hz]
    exact ih h.2 (List.nodup_cons.mp hnd).2

/-- Appending a place behind the last one, `y`. -/
theorem append (h : Linked next a (u ++ [y])) (hx : x ∉ u ++ [y]) (hend : next x = none) :
    Linked (Function.update next y (some x)) a (u ++ [y, x]) := by
  have hnd := h.nodup
  induction u generalizing a with
  | nil =>
    have hxy : x ≠ y := by
      rintro rfl
      exact hx (by simp)
    refine ⟨h.1, ?_, ?_⟩
    · rw [Function.update_self]
    · rw [Function.update_of_ne hxy]
      exact hend
  | cons z u ih =>
    have hz : z ≠ y := by
      rintro rfl
      exact (List.nodup_cons.mp hnd).1 (by simp)
    refine ⟨h.1, ?_⟩
    rw [Function.update_of_ne hz]
    exact ih h.2 (fun hm => hx (List.mem_cons_of_mem _ hm)) (List.nodup_cons.mp hnd).2

end Linked

end Eamrp.Lib
