import Mathlib

/-!
# Programs that follow a step relation

A partial-correctness logic for fault-prone state-passing programs `Except ε α`, where `α`
carries the state. `Follows R B π s x Q` says that `x`, started in `s`, either ends in a
state that `R`-steps reach and with a result in `Q`, or faults in a state that `R`-steps
reach and where `B` blames that fault. What every step preserves then holds at the end of
a run and at every fault, without looking at the program again.
-/

namespace Eamrp.Lib

open Relation

universe u v w

section Follows

variable {σ : Type u} {ε : Type v} {α β : Type w} {R : σ → σ → Prop} {B : σ → ε → Prop}

/-- `x` follows `R` from `s`; `π` projects a result on its state. -/
def Follows (R : σ → σ → Prop) (B : σ → ε → Prop) (π : α → σ) (s : σ) (x : Except ε α)
    (Q : α → Prop) : Prop :=
  match x with
  | .ok a => ReflTransGen R s (π a) ∧ Q a
  | .error f => ∃ s', ReflTransGen R s s' ∧ B s' f

namespace Follows

variable {π : α → σ} {ρ : β → σ} {s s' : σ} {x : Except ε α} {Q Q' : α → Prop}

/-- A program that returns at once. -/
theorem ok {a : α} (h : ReflTransGen R s (π a)) (hq : Q a) :
    Follows R B π s (.ok a) Q := ⟨h, hq⟩

/-- A program that faults at once. -/
theorem error {f : ε} (h : B s f) : Follows R B π s (.error f) Q := ⟨s, .refl, h⟩

/-- Steps taken before a program belong to it. -/
theorem after (h : ReflTransGen R s s') (hx : Follows R B π s' x Q) :
    Follows R B π s x Q := by
  cases x with
  | ok a => exact ⟨h.trans hx.1, hx.2⟩
  | error f =>
    obtain ⟨t, ht, hb⟩ := hx
    exact ⟨t, h.trans ht, hb⟩

/-- Weakening of the postcondition. -/
theorem mono (hx : Follows R B π s x Q) (h : ∀ a, ReflTransGen R s (π a) → Q a → Q' a) :
    Follows R B π s x Q' := by
  cases x with
  | ok a => exact ⟨hx.1, h a hx.1 hx.2⟩
  | error f => exact hx

/-- Sequential composition. -/
theorem bind {k : α → Except ε β} {P : β → Prop} (hx : Follows R B π s x Q)
    (hk : ∀ a, ReflTransGen R s (π a) → Q a → Follows R B ρ (π a) (k a) P) :
    Follows R B ρ s (x >>= k) P := by
  cases x with
  | ok a => exact after hx.1 (hk a hx.1 hx.2)
  | error f => exact hx

/-- A loop over a list, with an invariant on the accumulator. -/
theorem foldlM {γ : Type w} {f : α → γ → Except ε α} {J : α → Prop} (l : List γ) (a : α)
    (hJ : J a) (hf : ∀ a, ∀ c ∈ l, J a → Follows R B π (π a) (f a c) J) :
    Follows R B π (π a) (l.foldlM f a) J := by
  induction l generalizing a with
  | nil => exact ok .refl hJ
  | cons c l ih =>
    rw [List.foldlM_cons]
    refine (hf a c (by simp) hJ).bind fun a' _ ha' => ?_
    exact ih a' ha' fun a c hc => hf a c (List.mem_cons_of_mem _ hc)

/-- What a finished program has done. -/
theorem steps_of_ok {a : α} (h : Follows R B π s (.ok a) Q) : ReflTransGen R s (π a) := h.1

/-- What a finished program guarantees. -/
theorem post_of_ok {a : α} (h : Follows R B π s (.ok a) Q) : Q a := h.2

/-- Where a faulty program was when it faulted. -/
theorem blame_of_error {f : ε} (h : Follows R B π s (.error f) Q) :
    ∃ s', ReflTransGen R s s' ∧ B s' f := h

end Follows

end Follows

/-- A sequence whose first part has ended. -/
theorem ok_bind {ε : Type v} {α β : Type w} (a : α) (k : α → Except ε β) :
    ((.ok a : Except ε α) >>= k) = k a := rfl

/-- The two parts of a sequence that ends without a fault. -/
theorem of_bind_ok {ε : Type v} {α β : Type w} {x : Except ε α} {k : α → Except ε β} {b : β}
    (h : (x >>= k) = .ok b) : ∃ a, x = .ok a ∧ k a = .ok b := by
  cases x with
  | ok a => exact ⟨a, rfl, h⟩
  | error f => cases h

/-- An invariant of a loop over a list that ends without a fault. -/
theorem foldlM_ok {ε : Type v} {α γ : Type w} {f : α → γ → Except ε α} {J : α → Prop}
    {l : List γ} {a b : α} (hf : ∀ a, ∀ c ∈ l, ∀ a', J a → f a c = .ok a' → J a') (hJ : J a)
    (h : l.foldlM f a = .ok b) : J b := by
  induction l generalizing a with
  | nil =>
    obtain rfl := Except.ok.inj h
    exact hJ
  | cons c l ih =>
    rw [List.foldlM_cons] at h
    obtain ⟨a', ha', h⟩ := of_bind_ok h
    exact ih (fun a c hc => hf a c (List.mem_cons_of_mem _ hc))
      (hf a c (List.mem_cons_self ..) a' hJ ha') h

private theorem foldlM_cases_from {ε : Type v} {α γ : Type w} {f : α → γ → Except ε α}
    {J : List γ → α → Prop} {E : ε → Prop} {l u v : List γ} {a : α} (hl : u ++ v = l) (hJ : J u a)
    (hf : ∀ u c v a, u ++ c :: v = l → J u a →
      (∃ a', f a c = .ok a' ∧ J (u ++ [c]) a') ∨ ∃ err, f a c = .error err ∧ E err) :
    (∃ b, v.foldlM f a = .ok b ∧ J l b) ∨ ∃ err, v.foldlM f a = .error err ∧ E err := by
  induction v generalizing u a with
  | nil =>
    rw [List.append_nil] at hl
    exact .inl ⟨a, rfl, hl ▸ hJ⟩
  | cons c v ih =>
    rw [List.foldlM_cons]
    rcases hf u c v a hl hJ with ⟨a', ha', hJ'⟩ | ⟨err, herr, hE⟩
    · rw [ha']
      exact ih (by rw [← hl, List.append_assoc]; rfl) hJ'
    · rw [herr]
      exact .inr ⟨err, rfl, hE⟩

/-- A loop over a list, with an invariant on the elements passed and the accumulator: it ends
with the invariant, or with one of the faults of a turn. -/
theorem foldlM_cases {ε : Type v} {α γ : Type w} {f : α → γ → Except ε α}
    {J : List γ → α → Prop} {E : ε → Prop} {l : List γ} {a : α} (hJ : J [] a)
    (hf : ∀ u c v a, u ++ c :: v = l → J u a →
      (∃ a', f a c = .ok a' ∧ J (u ++ [c]) a') ∨ ∃ err, f a c = .error err ∧ E err) :
    (∃ b, l.foldlM f a = .ok b ∧ J l b) ∨ ∃ err, l.foldlM f a = .error err ∧ E err :=
  foldlM_cases_from (List.nil_append l) hJ hf

/-- What every step preserves, many steps preserve. -/
theorem preserved_of_steps {σ : Type u} {R : σ → σ → Prop} {I : σ → Prop}
    (h : ∀ s s', I s → R s s' → I s') {s s' : σ} (hs : ReflTransGen R s s') (hi : I s) :
    I s' := by
  induction hs with
  | refl => exact hi
  | tail _ hstep ih => exact h _ _ ih hstep

/-- A reflexive and transitive relation that every step respects relates the ends of many
steps. -/
theorem related_of_steps {σ : Type u} {R P : σ → σ → Prop} (hrefl : ∀ s, P s s)
    (htrans : ∀ a b c, P a b → P b c → P a c) (h : ∀ s s', R s s' → P s s') {s s' : σ}
    (hs : ReflTransGen R s s') : P s s' := by
  induction hs with
  | refl => exact hrefl s
  | tail _ hstep ih => exact htrans _ _ _ ih (h _ _ hstep)

end Eamrp.Lib
