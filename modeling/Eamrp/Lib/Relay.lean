import Eamrp.Lib.Fifo

/-!
# Relays that lose but never reorder

A relay takes items, keeps some of them waiting and passes items on. Every item belongs to a
flow. An item is passed on at once only when nothing of its flow waits, and a waiting item
leaves only as the oldest of its flow; any waiting item may be discarded, and any item may be
refused. So no item is duplicated, every item is accounted for, and a flow is never reordered.
Queues with deadlines are such relays, with the keys for flows.
-/

namespace Eamrp.Lib.Relay

universe u v w

variable {α : Type u} {β : Type v} {κ : Type w}

/-- What a relay does with an item. -/
inductive Act (α : Type u) where
  /-- A new item waits. -/
  | accept (x : α)
  /-- A new item is passed on. -/
  | through (x : α)
  /-- A new item is turned away. -/
  | refuse (x : α)
  /-- A waiting item is passed on. -/
  | release (x : α)
  /-- A waiting item is discarded, and this is reported. -/
  | discard (x : α)
  /-- A waiting item disappears. -/
  | lose (x : α)

namespace Act

/-- The item is new. -/
def taken? : Act α → Option α
  | .accept x | .through x | .refuse x => some x
  | _ => none

/-- The item is passed on. -/
def passed? : Act α → Option α
  | .through x | .release x => some x
  | _ => none

/-- The item is turned away or discarded. -/
def dropped? : Act α → Option α
  | .refuse x | .discard x => some x
  | _ => none

/-- The item disappears. -/
def lost? : Act α → Option α
  | .lose x => some x
  | _ => none

/-- The same act with another item. -/
def map (f : α → β) : Act α → Act β
  | .accept x => .accept (f x)
  | .through x => .through (f x)
  | .refuse x => .refuse (f x)
  | .release x => .release (f x)
  | .discard x => .discard (f x)
  | .lose x => .lose (f x)

end Act

/-- The items that came in. -/
def taken (t : List (Act α)) : List α := t.filterMap Act.taken?

/-- The items that were passed on. -/
def passed (t : List (Act α)) : List α := t.filterMap Act.passed?

/-- The items that were turned away or discarded. -/
def dropped (t : List (Act α)) : List α := t.filterMap Act.dropped?

/-- The items that disappeared. -/
def lost (t : List (Act α)) : List α := t.filterMap Act.lost?

/-- One act, and what waits before and after it. -/
inductive Step (flow : α → κ) : List α → Act α → List α → Prop where
  | accept (l : List α) (x : α) : Step flow l (.accept x) (l ++ [x])
  | through {l : List α} {x : α} (h : ∀ y ∈ l, flow y ≠ flow x) : Step flow l (.through x) l
  | refuse (l : List α) (x : α) : Step flow l (.refuse x) l
  | release {u : List α} {x : α} (v : List α) (h : ∀ y ∈ u, flow y ≠ flow x) :
      Step flow (u ++ x :: v) (.release x) (u ++ v)
  | discard (u : List α) (x : α) (v : List α) : Step flow (u ++ x :: v) (.discard x) (u ++ v)
  | lose (u : List α) (x : α) (v : List α) : Step flow (u ++ x :: v) (.lose x) (u ++ v)

/-- The items of one flow. -/
def ofFlow [DecidableEq κ] (flow : α → κ) (k : κ) (l : List α) : List α :=
  l.filter fun x => decide (flow x = k)

namespace Step

variable {flow : α → κ} {l m : List α} {a : Act α}

theorem map {f : α → β} {flow' : β → κ} (hf : ∀ x, flow' (f x) = flow x) (h : Step flow l a m) :
    Step flow' (l.map f) (a.map f) (m.map f) := by
  have hother : ∀ {u : List α} {x : α}, (∀ y ∈ u, flow y ≠ flow x) →
      ∀ y ∈ u.map f, flow' y ≠ flow' (f x) := by
    intro u x hu y hy
    obtain ⟨z, hz, rfl⟩ := List.mem_map.mp hy
    rw [hf, hf]
    exact hu z hz
  cases h with
  | accept =>
    rw [List.map_append]
    exact .accept _ _
  | through h => exact .through (hother h)
  | refuse => exact .refuse _ _
  | release v h =>
    rw [List.map_append, List.map_append, List.map_cons]
    exact .release _ (hother h)
  | discard u x v =>
    rw [List.map_append, List.map_append, List.map_cons]
    exact .discard _ _ _
  | lose u x v =>
    rw [List.map_append, List.map_append, List.map_cons]
    exact .lose _ _ _

/-- One act keeps a flow in order. -/
theorem order [DecidableEq κ] (h : Step flow l a m) (k : κ) :
    (ofFlow flow k (a.passed?.toList ++ m)).Sublist (ofFlow flow k (l ++ a.taken?.toList)) := by
  have hskip : ∀ (u v : List α) (x : α),
      (ofFlow flow k (u ++ v)).Sublist (ofFlow flow k (u ++ x :: v)) := fun u v x =>
    ((List.sublist_cons_self x v).append_left u).filter _
  have hnone : ∀ {u : List α} {x : α}, (∀ y ∈ u, flow y ≠ flow x) → flow x = k →
      ofFlow flow k u = [] := by
    intro u x hu hx
    exact List.filter_eq_nil_iff.mpr fun y hy => by simpa [← hx] using hu y hy
  cases h with
  | accept => exact List.Sublist.refl _
  | through h =>
    next x =>
    by_cases hx : flow x = k
    · have hl := hnone h hx
      unfold ofFlow at hl ⊢
      simp [Act.passed?, Act.taken?, hl, hx]
    · simp [ofFlow, Act.passed?, Act.taken?, hx]
  | refuse => exact (List.sublist_append_left l _).filter _
  | @release u x v h =>
    by_cases hx : flow x = k
    · have hu := hnone h hx
      unfold ofFlow at hu ⊢
      simp [Act.passed?, Act.taken?, hu, hx]
    · simp [ofFlow, Act.passed?, Act.taken?, hx]
  | discard u x v =>
    rw [show (Act.discard x).taken?.toList = [] from rfl, List.append_nil]
    exact hskip u v x
  | lose u x v =>
    rw [show (Act.lose x).taken?.toList = [] from rfl, List.append_nil]
    exact hskip u v x

end Step

/-- Acts one after the other. -/
inductive Steps (flow : α → κ) : List α → List (Act α) → List α → Prop where
  | nil (l : List α) : Steps flow l [] l
  | cons {l m n : List α} {a : Act α} {t : List (Act α)} (h : Step flow l a m)
      (ht : Steps flow m t n) : Steps flow l (a :: t) n

namespace Steps

variable {flow : α → κ} {l m n : List α} {t s : List (Act α)}

theorem append (h : Steps flow l t m) (h' : Steps flow m s n) : Steps flow l (t ++ s) n := by
  induction h with
  | nil => exact h'
  | cons ha _ ih => exact .cons ha (ih h')

theorem single {a : Act α} (h : Step flow l a m) : Steps flow l [a] m := .cons h (.nil m)

/-- Whatever part of a queue satisfies `p` may disappear. -/
theorem lose_filter (flow : α → κ) (p : α → Bool) (l : List α) :
    ∃ t, Steps flow l t (l.filter fun x => !p x) ∧ taken t = [] ∧ passed t = [] ∧
      dropped t = [] ∧ lost t = l.filter p := by
  have hfrom : ∀ u v : List α, ∃ t, Steps flow (u ++ v) t (u ++ v.filter fun x => !p x) ∧
      taken t = [] ∧ passed t = [] ∧ dropped t = [] ∧ lost t = v.filter p := by
    intro u v
    induction v generalizing u with
    | nil => exact ⟨[], .nil _, rfl, rfl, rfl, rfl⟩
    | cons x v ih =>
      cases hp : p x with
      | true =>
        obtain ⟨t, ht, htaken, hpassed, hdropped, hlost⟩ := ih u
        refine ⟨.lose x :: t, ?_, htaken, hpassed, hdropped, ?_⟩
        · rw [List.filter_cons_of_neg (by simp [hp])]
          exact .cons (.lose u x v) ht
        · rw [List.filter_cons_of_pos hp, ← hlost]
          rfl
      | false =>
        obtain ⟨t, ht, hrest⟩ := ih (u ++ [x])
        refine ⟨t, ?_, ?_⟩
        · rw [List.filter_cons_of_pos (by simp [hp])]
          simpa using ht
        · rwa [List.filter_cons_of_neg (by simp [hp])]
  simpa using hfrom [] l

/-- Items seen through a function that respects flows. -/
theorem map {f : α → β} {flow' : β → κ} (hf : ∀ x, flow' (f x) = flow x) (h : Steps flow l t m) :
    Steps flow' (l.map f) (t.map (Act.map f)) (m.map f) := by
  induction h with
  | nil l => exact .nil _
  | cons ha _ ih => exact .cons (ha.map hf) ih

/-- Every item is waiting, passed on, dropped or lost, and no item twice. -/
theorem balance (h : Steps flow l t m) :
    (l ++ taken t).Perm (passed t ++ dropped t ++ lost t ++ m) := by
  induction h with
  | nil l => simp [taken, passed, dropped, lost]
  | @cons l m n a t ha _ ih =>
    classical
    rw [List.perm_iff_count] at ih ⊢
    intro x
    have ih := ih x
    cases ha <;>
      simp only [taken, passed, dropped, lost, List.filterMap_cons, Act.taken?, Act.passed?,
        Act.dropped?, Act.lost?, List.count_append, List.count_cons, List.count_nil] at ih ⊢ <;>
      omega

/-- What is passed on of a flow, and then what waits of it, is in the order in which the flow
waited and came in. -/
theorem order [DecidableEq κ] (h : Steps flow l t m) (k : κ) :
    (ofFlow flow k (passed t ++ m)).Sublist (ofFlow flow k (l ++ taken t)) := by
  induction h with
  | nil l => simp [taken, passed]
  | @cons l m n a t ha _ ih =>
    have hpassed : passed (a :: t) = a.passed?.toList ++ passed t := by
      cases a <;> rfl
    have htaken : taken (a :: t) = a.taken?.toList ++ taken t := by
      cases a <;> rfl
    have hrest := (List.Sublist.refl (ofFlow flow k a.passed?.toList)).append ih
    have hfirst := (ha.order k).append (List.Sublist.refl (ofFlow flow k (taken t)))
    rw [hpassed, htaken]
    simp only [ofFlow, List.filter_append, List.append_assoc] at hrest hfirst ⊢
    exact hrest.trans hfirst

end Steps

/-! ### Traces seen through a function -/

section Map

variable (f : α → β) (t : List (Act α))

variable {f t} in
private theorem filterMap_map_act {g : Act α → Option α} {g' : Act β → Option β}
    (h : ∀ a, g' (a.map f) = (g a).map f) :
    (t.map (Act.map f)).filterMap g' = (t.filterMap g).map f := by
  rw [List.filterMap_map, List.map_filterMap]
  exact congrFun (congrArg List.filterMap (funext h)) t

theorem taken_map : taken (t.map (Act.map f)) = (taken t).map f :=
  filterMap_map_act fun a => by cases a <;> rfl

theorem passed_map : passed (t.map (Act.map f)) = (passed t).map f :=
  filterMap_map_act fun a => by cases a <;> rfl

theorem dropped_map : dropped (t.map (Act.map f)) = (dropped t).map f :=
  filterMap_map_act fun a => by cases a <;> rfl

theorem lost_map : lost (t.map (Act.map f)) = (lost t).map f :=
  filterMap_map_act fun a => by cases a <;> rfl

end Map

/-! ### Queues with deadlines -/

section Fifo

variable {τ : Type v} [LT τ] [DecidableLT τ] (due : α → τ) (now : τ) {key : α → κ} {k : κ}
  {l : List α}

/-- Clearing a queue loses what has aged. -/
theorem live_steps (key : α → κ) (l : List α) : ∃ t, Steps key l t (Fifo.live due now l) ∧
    taken t = [] ∧ passed t = [] ∧ dropped t = [] ∧ lost t = Fifo.aged due now l :=
  Steps.lose_filter key (fun x => decide (due x < now)) l

/-- The oldest item under a key is handed out: it is passed on, or discarded. -/
theorem popKey_steps [DecidableEq κ] {x : α} {l' : List α} (h : Fifo.popKey due key now k l = (some x, l'))
    (on : Bool) : ∃ t, Steps key l t l' ∧ taken t = [] ∧
      passed t = (if on then [x] else []) ∧ dropped t = (if on then [] else [x]) ∧
      lost t = Fifo.aged due now l := by
  obtain ⟨t, ht, htaken, hpassed, hdropped, hlost⟩ := live_steps due now key l
  obtain ⟨hfind, herase⟩ := Prod.mk.inj h
  obtain ⟨hx, u, v, hlive, hu⟩ := List.find?_eq_some_iff_append.mp hfind
  have hrest : l' = u ++ v := by
    rw [← herase, hlive, List.eraseP_append_right _ fun y hy => by simpa using hu y hy,
      List.eraseP_cons_of_pos (p := fun x => key x == k) hx]
  have hfirst : ∀ y ∈ u, key y ≠ key x := by
    intro y hy heq
    have hk : key x = k := by simpa using hx
    have hne := hu y hy
    simp [heq, hk] at hne
  rw [hlive] at ht
  rw [hrest]
  cases on with
  | true =>
    refine ⟨t ++ [.release x], ht.append (.single (.release v hfirst)), ?_⟩
    simp only [taken, passed, dropped, lost, List.filterMap_append] at *
    simp [htaken, hpassed, hdropped, hlost, Act.taken?, Act.passed?, Act.dropped?, Act.lost?]
  | false =>
    refine ⟨t ++ [.discard x], ht.append (.single (.discard u x v)), ?_⟩
    simp only [taken, passed, dropped, lost, List.filterMap_append] at *
    simp [htaken, hpassed, hdropped, hlost, Act.taken?, Act.passed?, Act.dropped?, Act.lost?]

/-- An item enters, and the oldest one may be pushed out. -/
theorem push_steps (key : α → κ) (limit : Nat) (x : α) (l : List α) :
    ∃ t, Steps key l t (Fifo.push due limit now x l).1 ∧ taken t = [x] ∧ passed t = [] ∧
      dropped t = (Fifo.push due limit now x l).2.toList ∧ lost t = Fifo.aged due now l := by
  obtain ⟨t, ht, htaken, hpassed, hdropped, hlost⟩ := live_steps due now key l
  have haccept := ht.append (.single (.accept _ x))
  simp only [taken, passed, dropped, lost] at *
  unfold Fifo.push
  split
  · cases hlive : Fifo.live due now l with
    | nil =>
      rw [hlive] at haccept
      refine ⟨_, haccept, ?_⟩
      simp [htaken, hpassed, hdropped, hlost, Act.taken?, Act.passed?, Act.dropped?, Act.lost?]
    | cons y m =>
      rw [hlive] at haccept
      refine ⟨_, haccept.append (.single (.discard [] y (m ++ [x]))), ?_⟩
      simp [List.filterMap_cons, htaken, hpassed, hdropped, hlost, Act.taken?, Act.passed?,
        Act.dropped?, Act.lost?]
  · refine ⟨_, haccept, ?_⟩
    simp [htaken, hpassed, hdropped, hlost, Act.taken?, Act.passed?, Act.dropped?, Act.lost?]

end Fifo

end Eamrp.Lib.Relay
