import Mathlib

/-!
# Ranks along a relation

Two uses of ranks for graphs that are given by a relation: a rank that rises along edges
excludes cycles, and ranks that are reached without gaps inside a finite set are bounded by
its size.
-/

namespace Eamrp.Lib

open Relation

universe u v

/-- A relation has no cycle. -/
def Acyclic {α : Type u} (E : α → α → Prop) : Prop := ∀ a, ¬ TransGen E a a

/-- If a rank rises along every edge whose target has an edge of its own, there is no cycle. -/
theorem acyclic_of_rank {α : Type u} {β : Type v} [Preorder β] {E : α → α → Prop} (μ : α → β)
    (h : ∀ a b c, E a b → E b c → μ a < μ b) : Acyclic E := by
  have hrise : ∀ {a b}, TransGen E a b → ∀ c, E b c → μ a < μ b := by
    intro a b hab
    induction hab with
    | single hab => exact fun c hbc => h _ _ c hab hbc
    | tail _ hbc ih => exact fun d hcd => (ih _ hbc).trans (h _ _ d hbc hcd)
  intro a ha
  obtain ⟨b, hab, -⟩ := TransGen.head'_iff.mp ha
  exact lt_irrefl _ (hrise ha b hab)

/-- If everything has at most one rank and every positive rank has a predecessor, ranks inside
a finite set are smaller than its size. -/
theorem rank_lt_card {α : Type u} [DecidableEq α] {R : α → ℕ → Prop} (s : Finset α)
    (hmem : ∀ a n, R a n → a ∈ s) (huniq : ∀ a m n, R a m → R a n → m = n)
    (hpred : ∀ a n, R a (n + 1) → ∃ b, R b n) {a : α} {n : ℕ} (h : R a n) :
    n < s.card := by
  have hall : ∀ k, k ≤ n → ∃ b, R b k := by
    intro k hk
    induction hk using Nat.decreasingInduction with
    | self => exact ⟨a, h⟩
    | of_succ k _ ih =>
      obtain ⟨b, hb⟩ := ih
      exact hpred b k hb
  have : Nonempty α := ⟨a⟩
  choose! f hf using hall
  have hinj : Set.InjOn f (Finset.range (n + 1)) := by
    intro k hk m hm hkm
    rw [Finset.mem_coe, Finset.mem_range, Nat.lt_succ_iff] at hk hm
    exact huniq _ _ _ (hf k hk) (hkm ▸ hf m hm)
  have hcard := Finset.card_le_card_of_injOn f (fun k hk => by
    rw [Finset.mem_coe, Finset.mem_range, Nat.lt_succ_iff] at hk
    exact hmem _ _ (hf k hk)) hinj
  rwa [Finset.card_range] at hcard

end Eamrp.Lib
