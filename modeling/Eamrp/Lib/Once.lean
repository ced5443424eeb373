import Mathlib

/-!
# Records that allow something once

A slot of a cache that holds at most one record. A record is made when the slot is empty,
lives at least for a fixed time, may be marked once and goes only after it has expired. What
is done only when a record is made happens with that time in between; what is done only when
a record is marked happens once during the life of a record.
-/

namespace Eamrp.Lib

universe u

namespace Once

/-- A record with its expiry time. -/
structure Record (T : Type u) where
  expire : T
  marked : Bool

/-- A turn of the slot, with what it does on making and on marking a record. -/
structure Turn (T : Type u) where
  now : T
  before : Option (Record T)
  after : Option (Record T)
  made : Nat
  marked : Nat

variable {T : Type u} [Preorder T] [Add T] {life : T}

/-- The turns a slot can take. -/
inductive Turn.Fair (life : T) : Turn T → Prop where
  /-- Nothing happens to the slot. -/
  | keep {now : T} {r : Option (Record T)} : Fair life ⟨now, r, r, 0, 0⟩
  /-- A record is made. -/
  | make {now : T} {b : Bool} {n k : Nat} (hn : n ≤ 1) (hk : k ≤ b.toNat) :
      Fair life ⟨now, none, some ⟨now + life, b⟩, n, k⟩
  /-- The record is marked. -/
  | mark {now expire : T} {k : Nat} (hk : k ≤ 1) :
      Fair life ⟨now, some ⟨expire, false⟩, some ⟨expire, true⟩, 0, k⟩
  /-- The record goes. -/
  | drop {now : T} {r : Record T} (h : r.expire ≤ now) : Fair life ⟨now, some r, none, 0, 0⟩

/-- Nothing is done on making a record while there is one. -/
theorem Turn.Fair.made_eq_zero {e : Turn T} (h : e.Fair life) (hb : e.before.isSome = true) :
    e.made = 0 := by
  cases h with
  | keep => rfl
  | make => cases hb
  | mark => rfl
  | drop => rfl

/-- The history of a slot that starts empty, and its content at the end. -/
inductive Log (life : T) : List (Turn T) → Option (Record T) → Prop where
  | nil : Log life [] none
  | snoc {l : List (Turn T)} {e : Turn T} (h : Log life l e.before) (he : e.Fair life) :
      Log life (l ++ [e]) e.after

/-- The times of what is done on making a record. -/
def times (l : List (Turn T)) : List T := l.flatMap fun e => List.replicate e.made e.now

/-- Beginnings of histories are histories. -/
theorem Log.of_append {u v : List (Turn T)} {r : Option (Record T)} (h : Log life (u ++ v) r) :
    ∃ r', Log life u r' := by
  induction v using List.reverseRecOn generalizing r with
  | nil => exact ⟨r, by simpa using h⟩
  | append_singleton v e ih =>
    rw [← List.append_assoc] at h
    generalize hw : u ++ v ++ [e] = w at h
    cases h with
    | nil => simp at hw
    | snoc h he =>
      obtain ⟨hl, -⟩ := List.append_inj' hw rfl
      exact ih (hl ▸ h)

/-- What was done on making a record is covered by that record, or its time is over. -/
private theorem Log.covered {l : List (Turn T)} {r : Option (Record T)} (h : Log life l r)
    (hclock : l.Pairwise fun e e' => e.now ≤ e'.now) :
    (times l).Pairwise (fun a b => a + life ≤ b) ∧
      ∀ a ∈ times l, (∃ x, r = some x ∧ a + life ≤ x.expire) ∨ ∃ e ∈ l, a + life ≤ e.now := by
  induction h with
  | nil => exact ⟨List.Pairwise.nil, fun a ha => absurd ha List.not_mem_nil⟩
  | @snoc l e hl he ih =>
    obtain ⟨hl', -, hlast⟩ := List.pairwise_append.mp hclock
    obtain ⟨hpair, hcover⟩ := ih hl'
    have hsplit : times (l ++ [e]) = times l ++ List.replicate e.made e.now := by
      simp [times]
    have hnow : ∀ e' ∈ l, e'.now ≤ e.now := fun e' he' => hlast e' he' e (by simp)
    have hweak : ∀ a, (∃ e' ∈ l, a + life ≤ e'.now) → ∃ e' ∈ l ++ [e], a + life ≤ e'.now :=
      fun a ⟨e', he', ha⟩ => ⟨e', List.mem_append_left _ he', ha⟩
    rw [hsplit]
    cases he with
    | keep => exact ⟨by simpa using hpair, fun a ha => (hcover a (by simpa using ha)).imp id (hweak a)⟩
    | @make now b n k hn hk =>
      have hover : ∀ a ∈ times l, a + life ≤ now := by
        intro a ha
        rcases hcover a ha with ⟨x, hx, -⟩ | ⟨e', he', hle⟩
        · cases hx
        · exact hle.trans (hnow e' he')
      refine ⟨List.pairwise_append.mpr ⟨hpair, ?_, ?_⟩, ?_⟩
      · exact List.pairwise_replicate.mpr (.inl hn)
      · intro a ha b hb
        rw [List.eq_of_mem_replicate hb]
        exact hover a ha
      · intro a ha
        rcases List.mem_append.mp ha with ha | ha
        · exact .inr ⟨_, List.mem_append_right _ (List.mem_singleton_self _), hover a ha⟩
        · rw [List.eq_of_mem_replicate ha]
          exact .inl ⟨_, rfl, le_refl _⟩
    | @mark now expire k hk =>
      refine ⟨by simpa using hpair, fun a ha => ?_⟩
      rcases hcover a (by simpa using ha) with ⟨x, hx, hle⟩ | hold
      · obtain rfl := Option.some.inj hx
        exact .inl ⟨_, rfl, hle⟩
      · exact .inr (hweak a hold)
    | @drop now r hr =>
      refine ⟨by simpa using hpair, fun a ha => .inr ?_⟩
      rcases hcover a (by simpa using ha) with ⟨x, hx, hle⟩ | hold
      · obtain rfl := Option.some.inj hx
        exact ⟨_, List.mem_append_right _ (List.mem_singleton_self _), hle.trans hr⟩
      · exact hweak a hold

/-- What is done on making a record happens with its life time in between. -/
theorem Log.spaced {l : List (Turn T)} {r : Option (Record T)} (h : Log life l r)
    (hclock : l.Pairwise fun e e' => e.now ≤ e'.now) :
    (times l).Pairwise (fun a b => a + life ≤ b) := (h.covered hclock).1

/-- The turns are part of the life of one record: it is there before each of them but the
first. -/
def Life (l : List (Turn T)) : Prop := ∀ e ∈ l.tail, e.before.isSome = true

/-- How often something is done on marking a record. -/
def marks (l : List (Turn T)) : Nat := (l.map Turn.marked).sum

private theorem Log.marks_le {u v : List (Turn T)} {r : Option (Record T)}
    (h : Log life (u ++ v) r) (hv : v ≠ []) (hl : Life v) :
    marks v ≤ 1 ∧ ∀ x, r = some x → marks v ≤ x.marked.toNat := by
  induction v using List.reverseRecOn generalizing r with
  | nil => exact absurd rfl hv
  | append_singleton v e ih =>
    rw [← List.append_assoc] at h
    generalize hw : u ++ v ++ [e] = w at h
    cases h with
    | nil => simp at hw
    | @snoc l e' h he =>
      obtain ⟨rfl, hee⟩ := List.append_inj' hw rfl
      obtain rfl := List.singleton_inj.mp hee
      have hsum : marks (v ++ [e]) = marks v + e.marked := by simp [marks]
      have hbefore : ∀ x, e.before = some x → marks v ≤ x.marked.toNat := by
        rcases eq_or_ne v [] with rfl | hne
        · exact fun x _ => Nat.zero_le _
        · refine (ih h hne fun e' he' => hl e' ?_).2
          rw [List.tail_append_of_ne_nil hne]
          exact List.mem_append_left _ he'
      have hlive : v ≠ [] → e.before.isSome = true := fun hne => hl e (by
        rw [List.tail_append_of_ne_nil hne]
        exact List.mem_append_right _ (List.mem_singleton_self e))
      rw [hsum]
      cases he with
      | @keep now r =>
        cases r with
        | none =>
          have hv' : v = [] := by
            by_contra hne
            simpa using hlive hne
          exact ⟨by simp [hv', marks], fun x hx => (by cases hx)⟩
        | some x =>
          have := hbefore x rfl
          have := x.marked.toNat_le
          exact ⟨by simp only; omega, fun y hy => Option.some.inj hy ▸ by simpa using hbefore x rfl⟩
      | @make now b n k hn hk =>
        have hv' : v = [] := by
          by_contra hne
          simpa using hlive hne
        have := b.toNat_le
        refine ⟨by simp only [hv', marks, List.map_nil, List.sum_nil]; omega, fun y hy => ?_⟩
        obtain rfl := Option.some.inj hy
        simpa [hv', marks] using hk
      | @mark now expire k hk =>
        have h0 : marks v = 0 := Nat.le_zero.mp (hbefore _ rfl)
        refine ⟨by simp only [h0]; omega, fun y hy => ?_⟩
        obtain rfl := Option.some.inj hy
        simpa [h0] using hk
      | @drop now x hx =>
        have := hbefore x rfl
        have := x.marked.toNat_le
        exact ⟨by simp only; omega, fun y hy => (by cases hy)⟩

/-- During the life of a record, what is done on marking it is done at most once. -/
theorem Log.once {u v : List (Turn T)} {r : Option (Record T)} (h : Log life (u ++ v) r)
    (hl : Life v) : marks v ≤ 1 := by
  rcases eq_or_ne v [] with rfl | hv
  · exact Nat.zero_le _
  · exact (h.marks_le hv hl).1

end Once

end Eamrp.Lib
