import Mathlib

/-!
# Finite runs of a labelled transition system

A run records every move it makes, so that statements about several moments of one run
can be made. Only the rules that combine moves with invariants are developed.
-/

namespace Eamrp.Lib

universe u v

/-- One move: the state before, the label and the state after. -/
structure Move (σ : Type u) (ℓ : Type v) where
  src : σ
  label : ℓ
  tgt : σ

/-- The first element of a list with a property that some element has. -/
theorem exists_first {α : Type u} {p : α → Prop} {l : List α} {a : α} (ha : a ∈ l) (hp : p a) :
    ∃ u b v, l = u ++ b :: v ∧ p b ∧ ∀ x ∈ u, ¬ p x := by
  classical
  obtain ⟨b, hb⟩ := Option.isSome_iff_exists.mp
    (List.find?_isSome (p := fun x => decide (p x)).mpr ⟨a, ha, decide_eq_true hp⟩)
  obtain ⟨hpb, u, v, hl, hu⟩ := List.find?_eq_some_iff_append.mp hb
  refine ⟨u, b, v, hl, of_decide_eq_true hpb, fun x hx => ?_⟩
  simpa using hu x hx

section Run

variable {σ : Type u} {ℓ : Type v} {init : σ → Prop} {step : σ → ℓ → σ → Prop}

/-- A run from an initial state, with its moves in order, and the state it ends in. -/
inductive Run (init : σ → Prop) (step : σ → ℓ → σ → Prop) : List (Move σ ℓ) → σ → Prop where
  | start {s : σ} (h : init s) : Run init step [] s
  | move {t : List (Move σ ℓ)} {s s' : σ} {l : ℓ} (h : Run init step t s)
      (hs : step s l s') : Run init step (t ++ [⟨s, l, s'⟩]) s'

/-- The states some run ends in. -/
def Reachable (init : σ → Prop) (step : σ → ℓ → σ → Prop) (s : σ) : Prop :=
  ∃ t, Run init step t s

namespace Run

/-- Every move of a run is a step from a state that a shorter run ends in. -/
theorem of_mem {t : List (Move σ ℓ)} {s : σ} (h : Run init step t s) {m : Move σ ℓ}
    (hm : m ∈ t) : Reachable init step m.src ∧ step m.src m.label m.tgt := by
  induction h with
  | start => simp at hm
  | move h hs ih =>
    rcases List.mem_append.mp hm with hm | hm
    · exact ih hm
    · obtain rfl := List.mem_singleton.mp hm
      exact ⟨⟨_, h⟩, hs⟩

/-- A run without moves ends where it starts. -/
theorem of_nil {s : σ} (h : Run init step [] s) : init s := by
  generalize ht : ([] : List (Move σ ℓ)) = t at h
  cases h with
  | start h => exact h
  | move h hs => simp at ht

/-- Cutting a run at a move: what comes before it is a run that ends where it starts, and
it is a step. -/
theorem of_append {t u : List (Move σ ℓ)} {m : Move σ ℓ} {s : σ}
    (h : Run init step (t ++ m :: u) s) :
    Run init step t m.src ∧ step m.src m.label m.tgt := by
  generalize hw : t ++ m :: u = w at h
  induction h generalizing u with
  | start => simp at hw
  | @move t' s s' l h hs ih =>
    rcases List.eq_nil_or_concat u with rfl | ⟨u, a, rfl⟩
    · obtain ⟨rfl, hm⟩ := List.append_inj' hw rfl
      obtain rfl : m = _ := by simpa using hm
      exact ⟨h, hs⟩
    · rw [List.concat_eq_append, ← List.cons_append, ← List.append_assoc] at hw
      exact ih (List.append_inj' hw rfl).1

/-- A relation that is reflexive, transitive and respected by every step from a reachable
state holds between the ends of any move and the end of the run. -/
theorem related {P : σ → σ → Prop} (hrefl : ∀ s, P s s)
    (htrans : ∀ a b c, P a b → P b c → P a c)
    (hstep : ∀ s l s', Reachable init step s → step s l s' → P s s')
    {t : List (Move σ ℓ)} {s : σ} (h : Run init step t s) {m : Move σ ℓ} (hm : m ∈ t) :
    P m.src s ∧ P m.tgt s := by
  induction h with
  | start => simp at hm
  | move h hs ih =>
    rcases List.mem_append.mp hm with hm | hm
    · have hss := hstep _ _ _ ⟨_, h⟩ hs
      exact ⟨htrans _ _ _ (ih hm).1 hss, htrans _ _ _ (ih hm).2 hss⟩
    · obtain rfl := List.mem_singleton.mp hm
      exact ⟨hstep _ _ _ ⟨_, h⟩ hs, hrefl _⟩

end Run

/-- Moves that follow one another, from a first state to a last one. -/
inductive Chain (step : σ → ℓ → σ → Prop) : σ → List (Move σ ℓ) → σ → Prop where
  | nil {s : σ} : Chain step s [] s
  | cons {s s' s'' : σ} {l : ℓ} {t : List (Move σ ℓ)} (hs : step s l s')
      (h : Chain step s' t s'') : Chain step s (⟨s, l, s'⟩ :: t) s''

namespace Chain

theorem append {s s' s'' : σ} {t u : List (Move σ ℓ)} (h : Chain step s t s')
    (h' : Chain step s' u s'') : Chain step s (t ++ u) s'' := by
  induction h with
  | nil => exact h'
  | cons hs _ ih => exact .cons hs (ih h')

/-- A chain can be cut anywhere. -/
theorem split {s s'' : σ} {t u : List (Move σ ℓ)} (h : Chain step s (t ++ u) s'') :
    ∃ s', Chain step s t s' ∧ Chain step s' u s'' := by
  induction t generalizing s with
  | nil => exact ⟨s, .nil, h⟩
  | cons m t ih =>
    cases h with
    | cons hs h =>
      obtain ⟨s', ht, hu⟩ := ih h
      exact ⟨s', .cons hs ht, hu⟩

/-- The states of a chain, seen through a function that steps respect. -/
theorem map {σ' : Type u} {ℓ' : Type v} {step' : σ' → ℓ' → σ' → Prop} (f : σ → σ')
    (g : Move σ ℓ → ℓ') {s s' : σ} {t : List (Move σ ℓ)} (h : Chain step s t s')
    (hstep : ∀ m ∈ t, step' (f m.src) (g m) (f m.tgt)) :
    Chain step' (f s) (t.map fun m => ⟨f m.src, g m, f m.tgt⟩) (f s') := by
  induction h with
  | nil => exact .nil
  | cons _ _ ih =>
    exact .cons (hstep _ List.mem_cons_self) (ih fun m hm => hstep m (List.mem_cons_of_mem _ hm))

end Chain

/-- The moves of a run follow one another. -/
theorem Run.chain {t : List (Move σ ℓ)} {s : σ} (h : Run init step t s) :
    ∃ s₀, init s₀ ∧ Chain step s₀ t s := by
  induction h with
  | start h => exact ⟨_, h, .nil⟩
  | move _ hs ih =>
    obtain ⟨s₀, h₀, hc⟩ := ih
    exact ⟨s₀, h₀, hc.append (.cons hs .nil)⟩

/-- The moves of a run after one of them follow that one. -/
theorem Run.chain_after {t u : List (Move σ ℓ)} {m : Move σ ℓ} {s : σ}
    (h : Run init step (t ++ m :: u) s) : Chain step m.tgt u s := by
  obtain ⟨s₀, -, hc⟩ := h.chain
  obtain ⟨s', -, hc⟩ := hc.split
  cases hc with
  | cons _ hc => exact hc

/-- Moves that follow a run continue it. -/
theorem Run.append {t u : List (Move σ ℓ)} {s s' : σ} (h : Run init step t s)
    (hc : Chain step s u s') : Run init step (t ++ u) s' := by
  induction hc generalizing t with
  | nil => rwa [List.append_nil]
  | cons hs _ ih =>
    have := ih (h.move hs)
    rwa [List.append_assoc, List.singleton_append] at this

namespace Reachable

/-- Initial states are reachable. -/
theorem start {s : σ} (h : init s) : Reachable init step s := ⟨[], .start h⟩

/-- Steps lead from reachable states to reachable states. -/
theorem next {s s' : σ} {l : ℓ} (h : Reachable init step s) (hs : step s l s') :
    Reachable init step s' := by
  obtain ⟨t, ht⟩ := h
  exact ⟨_, ht.move hs⟩

/-- Induction over the reachable states. -/
theorem induct {I : σ → Prop} (hinit : ∀ s, init s → I s)
    (hstep : ∀ s l s', Reachable init step s → I s → step s l s' → I s') {s : σ}
    (h : Reachable init step s) : I s := by
  obtain ⟨t, ht⟩ := h
  induction ht with
  | start h => exact hinit _ h
  | move h hs ih => exact hstep _ _ _ ⟨_, h⟩ ih hs

end Reachable

end Run

end Eamrp.Lib
