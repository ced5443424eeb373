import Mathlib

/-!
# Bounded patience

Something is attempted again and again, a number of times. An attempt is made at a tick or before,
unless the pause after the attempt before it is not over. If ticks are at most `p` apart and pauses
last at most `g`, the attempts are over in bounded time.
-/

namespace Eamrp.Lib.Patience

universe u

/-- The time of the last tick, the end of the pause and the number of attempts that are left. -/
structure State (τ : Type u) where
  tick : τ
  ready : τ
  left : ℕ

section Rules

variable {τ : Type u} [Field τ] [LinearOrder τ] [IsStrictOrderedRing τ]

/-- When there is a tick after the last attempt at the latest. -/
def State.limit (p g : τ) (s : State τ) : τ := max s.tick s.ready + p + s.left * (g + p)

/-- What can happen at time `t`. -/
inductive Step (p g : τ) (s : State τ) (t : τ) : State τ → Prop where
  /-- Neither a tick nor an attempt. -/
  | rest : Step p g s t s
  /-- A tick in a pause. -/
  | early (h : t < s.ready) : Step p g s t { s with tick := t }
  /-- An attempt, no later than the next tick. -/
  | attempt {s' : State τ} (ht : t ≤ s.tick + p) (htick : s'.tick ≤ t) (hready : s'.ready ≤ t + g)
      (hleft : s'.left < s.left) : Step p g s t s'

variable {p g t : τ} {s s' : State τ}

/-- The limit stands. -/
theorem Step.limit_le (h : Step p g s t s') (hp : 0 ≤ p) (hg : 0 ≤ g) :
    s'.limit p g ≤ s.limit p g := by
  unfold State.limit
  cases h with
  | rest => exact le_rfl
  | early h =>
    have hmax : max t s.ready ≤ max s.tick s.ready := by
      rw [max_eq_right h.le]
      exact le_max_right _ _
    linarith
  | attempt ht htick hready hleft =>
    have hmax : max s'.tick s'.ready ≤ t + g := max_le (by linarith) hready
    have hleft : ((s'.left : τ) + 1) * (g + p) ≤ s.left * (g + p) := by
      refine mul_le_mul_of_nonneg_right ?_ (by linarith)
      exact_mod_cast hleft
    have htick := le_max_left s.tick s.ready
    linarith

/-- Until then there is time for the next tick. -/
theorem State.tick_le_limit (hp : 0 ≤ p) (hg : 0 ≤ g) (s : State τ) : s.tick + p ≤ s.limit p g := by
  have hrest : 0 ≤ (s.left : τ) * (g + p) := mul_nonneg (Nat.cast_nonneg _) (by linarith)
  have htick := le_max_left s.tick s.ready
  unfold State.limit
  linarith

end Rules

end Eamrp.Lib.Patience
