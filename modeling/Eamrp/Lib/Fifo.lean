import Mathlib

/-!
# Bounded queues with deadlines

A queue is the list of its items, oldest first. Every operation but the membership test first
clears the items whose deadline has passed. An item enters at the back, and pushes the oldest
one out when the queue is full; items leave from the front, or by key. What an operation does
to the items is accounted for by a permutation: what was there or came in is still there, was
handed out, pushed out or cleared.
-/

namespace Eamrp.Lib.Fifo

universe u v w

variable {α β : Type u} {τ : Type v} {κ : Type w} [LT τ] [DecidableLT τ] [DecidableEq κ]

/-- The items whose deadline has not passed. -/
def live (due : α → τ) (now : τ) (l : List α) : List α := l.filter fun x => !decide (due x < now)

/-- The items whose deadline has passed. -/
def aged (due : α → τ) (now : τ) (l : List α) : List α := l.filter fun x => decide (due x < now)

/-- An item enters; the second component is the item it pushes out. -/
def push (due : α → τ) (limit : Nat) (now : τ) (x : α) (l : List α) : List α × Option α :=
  if (live due now l).length = limit then ((live due now l).tail ++ [x], (live due now l).head?)
  else (live due now l ++ [x], none)

/-- The oldest item leaves. -/
def pop (due : α → τ) (now : τ) (l : List α) : Option α × List α :=
  ((live due now l).head?, (live due now l).tail)

/-- The oldest item under a key leaves. -/
def popKey (due : α → τ) (key : α → κ) (now : τ) (k : κ) (l : List α) : Option α × List α :=
  ((live due now l).find? fun x => key x == k, (live due now l).eraseP fun x => key x == k)

/-- There is an item under a key. -/
def has (key : α → κ) (k : κ) (l : List α) : Bool := l.any fun x => key x == k

variable {due : α → τ} {key : α → κ} {now : τ} {k : κ} {x y : α} {l : List α} {limit : Nat}

theorem live_sublist (due : α → τ) (now : τ) (l : List α) : (live due now l).Sublist l :=
  List.filter_sublist

/-- An item that has aged goes, wherever it is. -/
theorem live_append_cons {u v : List α} (h : due x < now) :
    live due now (u ++ x :: v) = live due now (u ++ v) := by
  unfold live
  rw [List.filter_append, List.filter_append, List.filter_cons_of_neg (by simpa using h)]

/-- Nothing is cleared when nothing has aged. -/
theorem live_eq_self (h : ∀ x ∈ l, ¬ due x < now) : live due now l = l :=
  List.filter_eq_self.mpr fun x hx => by simpa using h x hx

theorem aged_eq_nil_iff : aged due now l = [] ↔ ∀ x ∈ l, ¬ due x < now := by
  simp [aged, List.filter_eq_nil_iff]

/-- A queue holds what it keeps and what it clears. -/
theorem live_perm (due : α → τ) (now : τ) (l : List α) : l.Perm (live due now l ++ aged due now l) := by
  have hperm := List.filter_append_perm (fun x => !decide (due x < now)) l
  have haged : aged due now l = l.filter fun x => !(!decide (due x < now)) := by
    simp [aged]
  rw [haged]
  exact hperm.symm

/-! ### The bound -/

/-- A queue within its limit stays there when an item enters. -/
theorem push_length_le (due : α → τ) (now : τ) (x : α) (h : l.length ≤ limit)
    (hpos : 0 < limit) :
    (push due limit now x l).1.length ≤ limit := by
  have hlive := (live_sublist due now l).length_le.trans h
  unfold push
  split
  next hfull =>
    rw [List.length_append, List.length_tail, hfull, List.length_singleton]
    omega
  next hroom =>
    rw [List.length_append, List.length_singleton]
    omega

/-- An item enters behind a part of the queue. -/
theorem push_eq_append (due : α → τ) (limit : Nat) (now : τ) (x : α) (l : List α) :
    ∃ m, m.Sublist l ∧ (push due limit now x l).1 = m ++ [x] := by
  unfold push
  split
  · exact ⟨_, (List.tail_sublist _).trans (live_sublist due now l), rfl⟩
  · exact ⟨_, live_sublist due now l, rfl⟩

theorem pop_sublist (due : α → τ) (now : τ) (l : List α) : (pop due now l).2.Sublist l :=
  (List.tail_sublist _).trans (live_sublist due now l)

theorem popKey_sublist (due : α → τ) (key : α → κ) (now : τ) (k : κ) (l : List α) :
    (popKey due key now k l).2.Sublist l :=
  List.eraseP_sublist.trans (live_sublist due now l)

/-! ### Accounts -/

private theorem head_tail_perm (l : List α) : l.Perm (l.tail ++ l.head?.toList) := by
  cases l with
  | nil => exact .refl _
  | cons x l => exact (List.perm_append_singleton x l).symm

private theorem find_erase_perm (p : α → Bool) (l : List α) :
    l.Perm (l.eraseP p ++ (l.find? p).toList) := by
  induction l with
  | nil => exact .refl _
  | cons x l ih =>
    cases hp : p x with
    | true =>
      rw [List.eraseP_cons_of_pos hp, List.find?_cons_of_pos hp]
      exact (List.perm_append_singleton x l).symm
    | false =>
      rw [List.eraseP_cons_of_neg (by simp [hp]), List.find?_cons_of_neg (by simp [hp])]
      exact ih.cons x

/-- What was there and what enters is there, pushed out or cleared. -/
theorem push_perm (due : α → τ) (limit : Nat) (now : τ) (x : α) (l : List α) : (l ++ [x]).Perm
    ((push due limit now x l).1 ++ (push due limit now x l).2.toList ++ aged due now l) := by
  have hl := (live_perm due now l).append_right [x]
  refine hl.trans ?_
  unfold push
  split
  · have hswap := ((head_tail_perm (live due now l)).append_right (aged due now l)).append_right [x]
    refine hswap.trans ?_
    simp only [List.append_assoc]
    refine .append_left _ ?_
    rw [← List.append_assoc]
    exact List.perm_append_comm
  · simp only [Option.toList_none, List.append_nil, List.append_assoc]
    exact .append_left _ List.perm_append_comm

/-- What was there is there, handed out or cleared. -/
theorem pop_perm (due : α → τ) (now : τ) (l : List α) :
    l.Perm ((pop due now l).2 ++ (pop due now l).1.toList ++ aged due now l) :=
  (live_perm due now l).trans ((head_tail_perm (live due now l)).append_right _)

/-- What was there is there, handed out or cleared. -/
theorem popKey_perm (due : α → τ) (key : α → κ) (now : τ) (k : κ) (l : List α) :
    l.Perm ((popKey due key now k l).2 ++ (popKey due key now k l).1.toList ++ aged due now l) :=
  (live_perm due now l).trans ((find_erase_perm _ (live due now l)).append_right _)

/-- What is pushed out was there. -/
theorem mem_of_push (h : (push due limit now x l).2 = some y) : y ∈ l := by
  unfold push at h
  split at h
  · exact (live_sublist due now l).subset (List.mem_of_head? h)
  · cases h

/-- What is handed out was there. -/
theorem mem_of_popKey (h : (popKey due key now k l).1 = some y) : y ∈ l :=
  (live_sublist due now l).subset (List.mem_of_find?_eq_some h)

/-! ### Queues in the order of their deadlines -/

section Sorted

variable {ρ : Type v} [LinearOrder ρ] {due : α → ρ} {l : List α}

/-- The items are in the order of their deadlines. -/
def Sorted (due : α → ρ) (l : List α) : Prop := l.Pairwise fun x y => due x ≤ due y

theorem Sorted.sublist {m : List α} (h : Sorted due l) (hm : m.Sublist l) : Sorted due m :=
  List.Pairwise.sublist hm h

/-- An item that is due last enters at the back. -/
theorem Sorted.concat {x : α} (h : Sorted due l) (hx : ∀ y ∈ l, due y ≤ due x) :
    Sorted due (l ++ [x]) := by
  refine List.pairwise_append.mpr ⟨h, List.pairwise_singleton _ _, fun y hy z hz => ?_⟩
  obtain rfl := List.mem_singleton.mp hz
  exact hx y hy

/-- What is before an aged item has aged. -/
theorem Sorted.aged_before {u v : List α} {x : α} {now : ρ} (h : Sorted due (u ++ x :: v))
    (hx : due x < now) : ∀ y ∈ u, due y < now := by
  intro y hy
  have hle := (List.pairwise_append.mp h).2.2 y hy x (List.mem_cons_self ..)
  exact lt_of_le_of_lt hle hx

/-- The aged items are those at the front. -/
theorem Sorted.aged_eq_takeWhile (h : Sorted due l) (now : ρ) :
    aged due now l = l.takeWhile fun x => decide (due x < now) := by
  induction l with
  | nil => rfl
  | cons x l ih =>
    by_cases hx : due x < now
    · have htail := ih h.of_cons
      unfold aged at htail ⊢
      rw [List.filter_cons_of_pos (by simpa using hx), List.takeWhile_cons_of_pos (by simpa using hx),
        htail]
    · have hlater : ∀ y ∈ x :: l, ¬ due y < now := by
        refine List.forall_mem_cons.mpr ⟨hx, fun y hy hlt => ?_⟩
        exact hx (lt_of_le_of_lt ((List.pairwise_cons.mp h).1 y hy) hlt)
      rw [aged_eq_nil_iff.mpr hlater, List.takeWhile_cons_of_neg (by simpa using hx)]

/-- Clearing a queue empties it from the front. -/
theorem Sorted.live_eq_dropWhile (h : Sorted due l) (now : ρ) :
    live due now l = l.dropWhile fun x => decide (due x < now) := by
  induction l with
  | nil => rfl
  | cons x l ih =>
    by_cases hx : due x < now
    · have hclear := live_append_cons (u := []) (v := l) hx
      rw [List.nil_append, List.nil_append] at hclear
      rw [hclear, ih h.of_cons, List.dropWhile_cons_of_pos (by simpa using hx)]
    · have hlater : ∀ y ∈ x :: l, ¬ due y < now := by
        refine List.forall_mem_cons.mpr ⟨hx, fun y hy hlt => ?_⟩
        exact hx (lt_of_le_of_lt ((List.pairwise_cons.mp h).1 y hy) hlt)
      rw [live_eq_self hlater, List.dropWhile_cons_of_neg (by simpa using hx)]

end Sorted

/-! ### Items seen through a function -/

section Map

variable (due : α → τ) (key : α → κ) (limit : Nat) (now : τ) (k : κ) (f : β → α) (z : β)
  (m : List β)

theorem live_map : live due now (m.map f) = (live (due ∘ f) now m).map f := by
  unfold live
  rw [List.filter_map]
  rfl

theorem push_map : push due limit now (f z) (m.map f) =
    ((push (due ∘ f) limit now z m).1.map f, (push (due ∘ f) limit now z m).2.map f) := by
  unfold push
  rw [live_map, List.length_map]
  split
  · rw [List.map_append, ← List.map_tail, List.head?_map]
    rfl
  · rw [List.map_append]
    rfl

theorem popKey_map : popKey due key now k (m.map f) =
    ((popKey (due ∘ f) (key ∘ f) now k m).1.map f, (popKey (due ∘ f) (key ∘ f) now k m).2.map f) := by
  unfold popKey
  rw [live_map, List.find?_map, List.eraseP_map]
  rfl

theorem has_map : has key k (m.map f) = has (key ∘ f) k m := by
  unfold has
  rw [List.any_map]
  rfl

end Map

end Eamrp.Lib.Fifo
