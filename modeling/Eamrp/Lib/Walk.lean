import Mathlib

/-!
# Finite walks along a partial function

`Walk next d a l` says that following `next` from `a` visits the list `l` and ends in the
target `d`. A walk is determined by its start, so it never comes back to a place it has left.
-/

namespace Eamrp.Lib

universe u

variable {α : Type u}

/-- Following `next` from a place until the target `d` is reached. -/
inductive Walk (next : α → Option α) (d : α) : α → List α → Prop where
  | stop : Walk next d d [d]
  | hop {a b : α} {l : List α} (hne : a ≠ d) (h : next a = some b) (hw : Walk next d b l) :
      Walk next d a (a :: l)

namespace Walk

variable {next next' : α → Option α} {d a b : α} {l l' : List α}

/-- A walk is a walk along every function that agrees where it is defined, short of the
target. -/
theorem mono_of_ne (h : ∀ a b, a ≠ d → next a = some b → next' a = some b)
    (hw : Walk next d a l) : Walk next' d a l := by
  induction hw with
  | stop => exact .stop
  | hop hne hn _ ih => exact .hop hne (h _ _ hne hn) ih

/-- A walk is a walk along every function that agrees where it is defined. -/
theorem mono (h : ∀ a b, next a = some b → next' a = some b) (hw : Walk next d a l) :
    Walk next' d a l :=
  hw.mono_of_ne fun a b _ => h a b

/-- A walk is determined by its start. -/
theorem unique (hw : Walk next d a l) (hw' : Walk next d a l') : l = l' := by
  induction hw generalizing l' with
  | stop =>
    cases hw' with
    | stop => rfl
    | hop hne => exact absurd rfl hne
  | hop hne hn _ ih =>
    cases hw' with
    | stop => exact absurd rfl hne
    | hop _ hn' hw'' =>
      obtain rfl := Option.some.inj (hn.symm.trans hn')
      rw [ih hw'']

/-- Every place on a walk starts a walk that is part of it. -/
theorem of_mem (hw : Walk next d a l) {x : α} (hx : x ∈ l) :
    ∃ l', Walk next d x l' ∧ l'.length ≤ l.length := by
  induction hw with
  | stop =>
    obtain rfl := List.mem_singleton.mp hx
    exact ⟨_, .stop, Nat.le_refl _⟩
  | @hop a b l hne hn hw ih =>
    rcases List.mem_cons.mp hx with rfl | hx
    · exact ⟨_, .hop hne hn hw, Nat.le_refl _⟩
    · obtain ⟨l', hl', hle⟩ := ih hx
      exact ⟨l', hl', hle.trans (Nat.le_succ _)⟩

/-- A walk does not come back to the place before its start. -/
theorem notMem_of_next (hne : a ≠ d) (h : next a = some b) (hw : Walk next d b l) : a ∉ l := by
  intro ha
  obtain ⟨l', hl', hle⟩ := hw.of_mem ha
  have := hl'.unique (.hop hne h hw)
  rw [this, List.length_cons] at hle
  omega

/-- A walk begins at its start. -/
theorem mem_self (hw : Walk next d a l) : a ∈ l := by
  cases hw with
  | stop => exact List.mem_singleton_self _
  | hop => exact List.mem_cons_self

/-- A walk visits no place twice. -/
theorem nodup (hw : Walk next d a l) : l.Nodup := by
  induction hw with
  | stop => exact List.nodup_singleton _
  | hop hne hn hw ih => exact List.nodup_cons.mpr ⟨notMem_of_next hne hn hw, ih⟩

/-- From every place on a walk but the target `next` is defined. -/
theorem next_of_mem (hw : Walk next d a l) {x : α} (hx : x ∈ l) (hne : x ≠ d) :
    ∃ y, next x = some y := by
  obtain ⟨l', hl', -⟩ := hw.of_mem hx
  cases hl' with
  | stop => exact absurd rfl hne
  | hop _ h _ => exact ⟨_, h⟩

/-- What holds at the start and is handed on by every hop holds all along a walk. -/
theorem forall_mem {Q : α → Prop} (hw : Walk next d a l) (ha : a ≠ d → Q a)
    (hQ : ∀ x y, x ≠ d → Q x → next x = some y → y ≠ d → Q y) : ∀ x ∈ l, x ≠ d → Q x := by
  induction hw with
  | stop =>
    intro x hx hne
    exact absurd (List.mem_singleton.mp hx) hne
  | @hop a b l hne hn hw ih =>
    intro x hx hxd
    rcases List.mem_cons.mp hx with rfl | hx
    · exact ha hne
    · exact ih (fun hb => hQ _ _ hne (ha hne) hn hb) x hx hxd

end Walk

end Eamrp.Lib
