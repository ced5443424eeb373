import Eamrp.Agent.Runs
import Eamrp.Lib.Soft
import Eamrp.Model.Timers

/-!
# Runs of an agent and its timers

The agent in such a run is an agent as it is without timers. Time passes no timer over, so a
timer that is running has fired not longer ago than its interval.
-/

namespace Eamrp

open Lib

namespace Timer

variable {env : Env} {k : Timer}

instance : Fintype Timer where
  elems := {.btimer, .htimer, .ntimer, .rtimer}
  complete k := by cases k <;> decide

/-- What a timer makes the agent do is not mistaken for what another one does. -/
theorem input_injective : Function.Injective input := by
  intro k k' h
  cases k <;> cases k' <;> first | rfl | cases h

theorem interval_pos (h : 0 ≤ env.uniform) : 0 < k.interval env := by
  cases k with
  | btimer => norm_num [interval, bcastIdSave]
  | htimer =>
    have hmin : (0 : Time) < minHelloInterval := by norm_num [minHelloInterval, helloInterval]
    have hspan : (0 : Time) ≤ maxHelloInterval - minHelloInterval := by
      norm_num [maxHelloInterval, minHelloInterval, helloInterval]
    exact add_pos_of_pos_of_nonneg hmin (mul_nonneg hspan h)
  | ntimer => norm_num [interval, helloInterval]
  | rtimer => norm_num [interval, frequency]

end Timer

namespace Timed

/-- The runs of an agent and its timers. -/
def Run (t : List (Move Timed Event)) (s : Timed) : Prop := Lib.Run Initial Step t s

/-- The timers are running. -/
def Started (s : Timed) : Prop := ∀ k, (s.due k).isSome

/-- The timer fires in the event. -/
def Event.Fires (k : Timer) : Event → Prop
  | .start _ => True
  | .fire k' _ => k' = k
  | .input _ _ => False

instance (k : Timer) (ev : Event) : Decidable (ev.Fires k) :=
  match ev with
  | .start _ => isTrue trivial
  | .fire k' _ => inferInstanceAs (Decidable (k' = k))
  | .input _ _ => isFalse id

/-- What the agent does in the event, one after the other. -/
def Event.turns : Event → List Turn
  | .start env => [⟨env, .broadcastTimer⟩, ⟨env, .helloTimer⟩, ⟨env, .neighborTimer⟩,
      ⟨env, .routeCacheTimer⟩]
  | .fire k env => [⟨env, k.input⟩]
  | .input env inp => [⟨env, inp⟩]

variable {s s' : Timed} {env : Env} {k : Timer} {ev : Event} {t : List (Move Timed Event)}

/-! ### The agent -/

@[simp] theorem quiet_out : s.quiet.world.out = [] := rfl

/-- One timer makes the agent handle one event. -/
theorem handle_ok (h : s.handle env k = .ok s') {w : World} (hw : w.toAgent = s.world.toAgent) :
    ∃ w', Agent.Handles w ⟨env, k.input⟩ w' ∧ w'.toAgent = s'.world.toAgent ∧
      s'.world.out = s.world.out ++ w'.out ∧ s'.clock = env.now ∧
      s'.due = Function.update s.due k (some (env.now + k.interval env)) := by
  unfold handle at h
  obtain ⟨w', hw', h⟩ := of_bind_ok h
  obtain rfl := Except.ok.inj h
  exact ⟨w', by rwa [Agent.Handles, hw], rfl, rfl, rfl, rfl⟩

/-- The events of the agent in one event of the agent and its timers. -/
theorem chain_of_next (h : s.next ev = .ok s') {w : World} (hw : w.toAgent = s.world.toAgent) :
    ∃ c w', Chain Agent.Handles w c w' ∧ w'.toAgent = s'.world.toAgent ∧
      c.map Move.label = ev.turns ∧ s'.world.out = c.flatMap fun m => m.tgt.out := by
  cases ev with
  | start env =>
    change s.quiet.start env = .ok s' at h
    unfold start at h
    obtain ⟨s₁, h₁, h⟩ := of_bind_ok h
    obtain ⟨s₂, h₂, h⟩ := of_bind_ok h
    obtain ⟨s₃, h₃, h⟩ := of_bind_ok h
    obtain ⟨w₁, hs₁, hw₁, ho₁, -⟩ := handle_ok h₁ hw
    obtain ⟨w₂, hs₂, hw₂, ho₂, -⟩ := handle_ok h₂ hw₁
    obtain ⟨w₃, hs₃, hw₃, ho₃, -⟩ := handle_ok h₃ hw₂
    obtain ⟨w₄, hs₄, hw₄, ho₄, -⟩ := handle_ok h hw₃
    refine ⟨_, w₄, .cons hs₁ (.cons hs₂ (.cons hs₃ (.cons hs₄ .nil))), hw₄, rfl, ?_⟩
    rw [ho₄, ho₃, ho₂, ho₁]
    simp
  | fire k env =>
    obtain ⟨w', hs, hw', ho, -⟩ := handle_ok h hw
    exact ⟨_, w', .cons hs .nil, hw', rfl, ho.trans (by simp)⟩
  | input env inp =>
    obtain ⟨w', hw', h⟩ := of_bind_ok h
    obtain rfl := Except.ok.inj h
    have hs : Agent.Handles w ⟨env, inp⟩ w' := by rwa [Agent.Handles, hw]
    exact ⟨_, w', .cons hs .nil, rfl, rfl, by simp⟩

/-- What an event sends is what the events of the agent in it send. -/
theorem sent_of_out {w : World} {c : List (Move World Turn)}
    (h : w.out = c.flatMap fun m => m.tgt.out) : w.sent = c.flatMap fun m => m.tgt.sent := by
  rw [World.sent, h, List.filterMap_flatMap]
  rfl

/-- The agent with timers is an agent: all that holds of every run of an agent holds of it. -/
theorem Run.agent (h : Run t s) : ∃ c w, Agent.Run c w ∧ w.toAgent = s.world.toAgent ∧
    c.map Move.label = t.flatMap fun m => m.label.turns := by
  induction h with
  | start h => exact ⟨[], _, .start ⟨h.agent, h.out⟩, rfl, rfl⟩
  | @move t s s' ev _ hs ih =>
    obtain ⟨c, w, hc, hw, hlabel⟩ := ih
    obtain ⟨c', w', hc', hw', hlabel', -⟩ := chain_of_next hs.2 hw
    exact ⟨c ++ c', w', Lib.Run.append hc hc', hw', by simp [hlabel, hlabel']⟩

/-- The agent of a run with timers is in a reachable state. -/
theorem Run.reachable (h : Run t s) : s.world.toAgent.Reachable := by
  obtain ⟨c, w, hc, hw, -⟩ := h.agent
  exact ⟨w, ⟨c, hc⟩, hw⟩

/-! ### The schedule -/

/-- What an event does to the clock and to the timers. -/
theorem next_schedule (h : s.next ev = .ok s') :
    s'.clock = ev.env.now ∧ (∀ k, ¬ ev.Fires k → s'.due k = s.due k) ∧
      ∀ k, ev.Fires k → s'.due k = some (ev.env.now + k.interval ev.env) := by
  cases ev with
  | start env =>
    change s.quiet.start env = .ok s' at h
    unfold start at h
    obtain ⟨s₁, h₁, h⟩ := of_bind_ok h
    obtain ⟨s₂, h₂, h⟩ := of_bind_ok h
    obtain ⟨s₃, h₃, h⟩ := of_bind_ok h
    obtain ⟨-, -, -, -, -, hd₁⟩ := handle_ok h₁ rfl
    obtain ⟨-, -, -, -, -, hd₂⟩ := handle_ok h₂ rfl
    obtain ⟨-, -, -, -, -, hd₃⟩ := handle_ok h₃ rfl
    obtain ⟨-, -, -, -, hclock, hd⟩ := handle_ok h rfl
    refine ⟨hclock, fun k hk => absurd trivial hk, fun k _ => ?_⟩
    rw [hd, hd₃, hd₂, hd₁]
    cases k <;> rfl
  | fire k env =>
    obtain ⟨-, -, -, -, hclock, hd⟩ := handle_ok h rfl
    refine ⟨hclock, fun k' hk => ?_, fun k' hk => ?_⟩
    · rw [hd]
      exact Function.update_of_ne (Ne.symm hk) _ _
    · obtain rfl : k = k' := hk
      rw [hd]
      exact Function.update_self _ _ _
  | input env inp =>
    obtain ⟨w', -, h⟩ := of_bind_ok h
    obtain rfl := Except.ok.inj h
    exact ⟨rfl, fun _ _ => rfl, fun _ hk => hk.elim⟩

/-- Timers that run go on running. -/
theorem Started.step (hs : s.Started) (h : s.Step ev s') : s'.Started := by
  obtain ⟨-, hkeep, hset⟩ := next_schedule h.2
  intro k
  by_cases hk : ev.Fires k
  · rw [hset k hk]
    rfl
  · rw [hkeep k hk]
    exact hs k

/-- What is known of the times in a run. -/
structure Schedule (t : List (Move Timed Event)) (s : Timed) : Prop where
  clock : 0 ≤ s.clock
  times : ∀ m ∈ t, 0 ≤ m.label.env.now ∧ m.label.env.now ≤ s.clock
  uniform : ∀ m ∈ t, 0 ≤ m.label.env.uniform ∧ m.label.env.uniform ≤ 1
  ordered : t.Pairwise fun m m' => m.label.env.now ≤ m'.label.env.now
  due : ∀ k u, s.due k = some u → s.clock ≤ u ∧
    ∃ m ∈ t, m.label.Fires k ∧ u = m.label.env.now + k.interval m.label.env
  started : (∀ k, s.due k = none) ∨ s.Started

theorem Run.schedule (h : Run t s) : Schedule t s := by
  induction h with
  | start h =>
    refine ⟨h.clock.ge, fun _ hm => ?_, fun _ hm => ?_, .nil, fun k u hk => ?_, .inl h.due⟩
    · cases hm
    · cases hm
    · cases (h.due k).symm.trans hk
  | @move t s s' ev _ hs ih =>
    obtain ⟨hen, hnext⟩ := hs
    obtain ⟨hclock, hkeep, hset⟩ := next_schedule hnext
    have hnow : 0 ≤ ev.env.now := ih.clock.trans hen.clock
    have hold : ∀ m ∈ t, m.label.env.now ≤ ev.env.now := fun m hm =>
      (ih.times m hm).2.trans hen.clock
    refine ⟨hclock ▸ hnow, fun m hm => ?_, fun m hm => ?_, ?_, fun k u hk => ?_, ?_⟩
    · rw [hclock]
      rcases List.mem_append.mp hm with hm | hm
      · exact ⟨(ih.times m hm).1, hold m hm⟩
      · obtain rfl := List.mem_singleton.mp hm
        exact ⟨hnow, le_rfl⟩
    · rcases List.mem_append.mp hm with hm | hm
      · exact ih.uniform m hm
      · obtain rfl := List.mem_singleton.mp hm
        exact hen.uniform
    · refine List.pairwise_append.mpr ⟨ih.ordered, List.pairwise_singleton _ _, ?_⟩
      intro m hm m' hm'
      obtain rfl := List.mem_singleton.mp hm'
      exact hold m hm
    · rw [hclock]
      by_cases hf : ev.Fires k
      · obtain rfl := Option.some.inj ((hset k hf).symm.trans hk)
        exact ⟨le_add_of_nonneg_right (Timer.interval_pos hen.uniform.1).le, _,
          List.mem_append_right _ (List.mem_singleton_self _), hf, rfl⟩
      · rw [hkeep k hf] at hk
        obtain ⟨-, m, hm, hmk, hu⟩ := ih.due k u hk
        exact ⟨hen.due k u hk, m, List.mem_append_left _ hm, hmk, hu⟩
    · cases ev with
      | start env => exact .inr fun k => by rw [hset k trivial]; rfl
      | fire k env =>
        refine .inr fun k' => ?_
        by_cases hk : k = k'
        · rw [hset k' hk]
          rfl
        · rw [hkeep k' hk]
          rcases ih.started with hnone | hall
          · cases (hnone k).symm.trans (hen.fire k env rfl)
          · exact hall k'
      | input env inp =>
        have hsame : s'.due = s.due := funext fun k => hkeep k id
        unfold Started
        rw [hsame]
        exact ih.started

/-! ### Playing a list of events -/

/-- An agent with the default limits, before its first event. -/
def idle (i : NsAddr) : Timed := { world := Agent.idle i }

theorem initial_idle (i : NsAddr) : (idle i).Initial := ⟨rfl, rfl, rfl, fun _ => rfl⟩

/-- What an event asks for beyond the clock. -/
def fits (s : Timed) : Event → Bool
  | .start _ => decide (∀ k, s.due k = none)
  | .fire k env => decide (s.due k = some env.now)
  | .input _ inp => decide (∀ k : Timer, inp ≠ k.input)

/-- The event can happen and does not fault. -/
def accepts (s : Timed) (ev : Event) : Bool :=
  decide (s.clock ≤ ev.env.now) && decide (∀ k, ∀ t ∈ s.due k, ev.env.now ≤ t) &&
    decide (0 ≤ ev.env.uniform ∧ ev.env.uniform ≤ 1) && s.fits ev && (s.next ev).isOk

/-- The state after an event; a fault leaves the state as it is. -/
def after (s : Timed) (ev : Event) : Timed :=
  match s.next ev with
  | .ok s' => s'
  | .error _ => s

/-- The moves of a list of events. -/
def moves (s : Timed) : List Event → List (Move Timed Event)
  | [] => []
  | ev :: l => ⟨s, ev, s.after ev⟩ :: (s.after ev).moves l

theorem label_mem_of_moves {l : List Event} {m : Move Timed Event} (hm : m ∈ s.moves l) :
    m.label ∈ l := by
  induction l generalizing s with
  | nil => cases hm
  | cons ev l ih =>
    rcases List.mem_cons.mp hm with rfl | hm
    · exact List.mem_cons_self
    · exact List.mem_cons_of_mem ev (ih hm)

/-- The state after a list of events. -/
def final (s : Timed) : List Event → Timed
  | [] => s
  | ev :: l => (s.after ev).final l

/-- The events can happen one after the other. -/
def plays (s : Timed) : List Event → Bool
  | [] => true
  | ev :: l => s.accepts ev && (s.after ev).plays l

theorem step_of_accepts (h : s.accepts ev = true) : s.Step ev (s.after ev) := by
  simp only [accepts, Bool.and_eq_true, decide_eq_true_eq] at h
  obtain ⟨⟨⟨⟨hclock, hdue⟩, huni⟩, hfits⟩, hok⟩ := h
  refine ⟨⟨hclock, fun k t hk => hdue k t hk, huni, ?_, ?_, ?_⟩, ?_⟩
  · rintro env rfl
    exact of_decide_eq_true hfits
  · rintro k env rfl
    exact of_decide_eq_true hfits
  · rintro env inp rfl
    exact of_decide_eq_true hfits
  · unfold after
    cases hn : s.next ev with
    | ok s' => rfl
    | error f => simp [hn, Except.isOk, Except.toBool] at hok

/-- Events that can be played continue a run. -/
theorem run_of_plays {l : List Event} (hs : Run t s) (h : s.plays l = true) :
    Run (t ++ s.moves l) (s.final l) := by
  induction l generalizing t s with
  | nil => simpa [moves, final] using hs
  | cons ev l ih =>
    simp only [plays, Bool.and_eq_true] at h
    have := ih (hs.move (step_of_accepts h.1)) h.2
    simpa [moves, final] using this

/-- Events that can be played from the start make a run. -/
theorem run_idle {i : NsAddr} {l : List Event} (h : (idle i).plays l = true) :
    Run ((idle i).moves l) ((idle i).final l) :=
  run_of_plays (t := []) (.start (initial_idle i)) h

end Timed

end Eamrp
