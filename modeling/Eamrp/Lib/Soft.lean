import Eamrp.Lib.Runs

/-!
# Soft state

The deadline of one key of a table. Hearing of the key sets its deadline, and only a sweep takes
the key out, if its deadline has come. So a key is there for as long as it has been promised, and
not much longer if sweeps are frequent.
-/

namespace Eamrp.Lib.Soft

universe u

/-- What happens to the key. -/
inductive Act (τ : Type u) where
  | hit (d : τ)
  | rest
  | sweep

/-- What happens, and when. -/
structure Turn (τ : Type u) where
  time : τ
  act : Act τ

section Rules

variable {τ : Type u} [LinearOrder τ]

/-- One change of the deadline; `none` if the key is not in the table. -/
inductive Step : Option τ → Turn τ → Option τ → Prop where
  | hit (f : Option τ) (t d : τ) : Step f ⟨t, .hit d⟩ (some d)
  | rest (f : Option τ) (t : τ) : Step f ⟨t, .rest⟩ f
  | sweep (f : Option τ) (t : τ) : Step f ⟨t, .sweep⟩ (f.filter fun d => decide (t < d))

variable {f f' : Option τ} {m : Turn τ} {d T : τ} {t : List (Move (Option τ) (Turn τ))}

/-- Before time `T` a key stays that is due at `T` or later. -/
theorem Step.kept (h : Step f m f') (hf : ∃ d, f = some d ∧ T ≤ d) (ht : m.time < T)
    (hhit : ∀ d, m.act = .hit d → T ≤ d) : ∃ d, f' = some d ∧ T ≤ d := by
  obtain ⟨d, rfl, hT⟩ := hf
  cases h with
  | hit _ _ => exact ⟨_, rfl, hhit _ rfl⟩
  | rest => exact ⟨d, rfl, hT⟩
  | sweep =>
    exact ⟨d, Option.filter_eq_some_iff.mpr ⟨rfl, decide_eq_true (ht.trans_le hT)⟩, hT⟩

/-- The same over any number of changes. -/
theorem kept (h : Chain Step f t f') (hf : ∃ d, f = some d ∧ T ≤ d)
    (ht : ∀ m ∈ t, m.label.time < T) (hhit : ∀ m ∈ t, ∀ d, m.label.act = .hit d → T ≤ d) :
    ∃ d, f' = some d ∧ T ≤ d := by
  induction h with
  | nil => exact hf
  | cons hs _ ih =>
    obtain ⟨ht₀, ht⟩ := List.forall_mem_cons.mp ht
    obtain ⟨hhit₀, hhit⟩ := List.forall_mem_cons.mp hhit
    exact ih (hs.kept hf ht₀ hhit₀) ht hhit

/-- Where a deadline comes from. -/
theorem Step.origin (h : Step f m f') (hf : f' = some d) :
    m.act = .hit d ∨ f = some d ∧ (m.act = .sweep → m.time < d) := by
  cases h with
  | hit _ _ => exact .inl (congrArg _ (Option.some.inj hf))
  | rest => exact .inr ⟨hf, fun hc => by cases hc⟩
  | sweep =>
    obtain ⟨hf, ht⟩ := Option.filter_eq_some_iff.mp hf
    exact .inr ⟨hf, fun _ => of_decide_eq_true ht⟩

/-- Every deadline of a key that was not in the table once has been set, and no sweep since has
come too late for it. -/
theorem origin (h : Chain Step none t (some d)) :
    ∃ u m v, t = u ++ m :: v ∧ m.label.act = .hit d ∧
      ∀ m' ∈ v, m'.label.act = .sweep → m'.label.time < d := by
  induction t using List.reverseRecOn with
  | nil => cases h
  | append_singleton t m ih =>
    obtain ⟨g, ht, hm⟩ := h.split
    cases hm with
    | cons hs hn =>
      cases hn
      rcases hs.origin rfl with hhit | ⟨rfl, hsweep⟩
      · exact ⟨t, _, [], rfl, hhit, fun _ hm => by cases hm⟩
      · obtain ⟨u, m, v, rfl, hhit, hv⟩ := ih ht
        refine ⟨u, m, v ++ [_], by rw [List.append_assoc, List.cons_append], hhit, ?_⟩
        intro m' hm'
        rcases List.mem_append.mp hm' with hm' | hm'
        · exact hv m' hm'
        · obtain rfl := List.mem_singleton.mp hm'
          exact hsweep

end Rules

end Eamrp.Lib.Soft
