import Eamrp.Abs.Protocol

/-!
# Runs of one agent

An agent on its own: any sequence of events, with whatever packets, times and readings of
`INFINITY` they bring. The state after an event still holds the effects of that event. The
agents of a network are such agents.
-/

namespace Eamrp

open Lib Relation

/-- One event of an agent and its surroundings. -/
structure Turn where
  env : Env
  input : Input

/-- The same node: address and limits never change. -/
structure World.SameNode (w w' : World) : Prop where
  index : w'.index = w.index
  eamrpMaxPaths : w'.eamrpMaxPaths = w.eamrpMaxPaths
  eamrpPrimAltPathLenDiff : w'.eamrpPrimAltPathLenDiff = w.eamrpPrimAltPathLenDiff

theorem World.SameNode.refl (w : World) : w.SameNode w := ⟨rfl, rfl, rfl⟩

theorem World.SameNode.trans {w w' w'' : World} (h : w.SameNode w') (h' : w'.SameNode w'') :
    w.SameNode w'' where
  index := h'.index.trans h.index
  eamrpMaxPaths := h'.eamrpMaxPaths.trans h.eamrpMaxPaths
  eamrpPrimAltPathLenDiff := h'.eamrpPrimAltPathLenDiff.trans h.eamrpPrimAltPathLenDiff

theorem Step.sameNode {env : Env} {heard : Input} {w w' : World} (h : Step env heard w w') :
    w.SameNode w' := by
  cases h with
  | entry => exact ⟨rfl, rfl, rfl⟩
  | rtAdd h =>
    obtain ⟨-, rfl⟩ := World.rtAdd_ok h
    exact ⟨rfl, rfl, rfl⟩
  | bumpSeqno => exact ⟨rfl, rfl, rfl⟩
  | raiseSeqno =>
    rw [World.raiseSeqno_eq]
    exact ⟨rfl, rfl, rfl⟩
  | frame h => exact ⟨h.index, h.eamrpMaxPaths, h.eamrpPrimAltPathLenDiff⟩
  | cache => exact ⟨rfl, rfl, rfl⟩
  | neighbors => exact ⟨rfl, rfl, rfl⟩
  | send => exact ⟨rfl, rfl, rfl⟩

namespace Agent

/-- An agent before its first event. -/
structure Fresh (w : World) : Prop where
  initial : w.toAgent.Initial w.index
  out : w.out = []

/-- The agent handles one event. A fault of the handler ends the run. -/
def Handles (w : World) (τ : Turn) (w' : World) : Prop :=
  handle τ.env τ.input w.toAgent.world = .ok w'

/-- The runs of an agent. -/
def Run (t : List (Move World Turn)) (w : World) : Prop := Lib.Run Fresh Handles t w

/-- The reachable states of an agent. -/
def Reachable (a : Agent) : Prop := ∃ w, Lib.Reachable Fresh Handles w ∧ w.toAgent = a

/-- The clock of the run never goes back. -/
def Clocked (t : List (Move World Turn)) : Prop :=
  t.Pairwise fun m m' => m.label.env.now ≤ m'.label.env.now

variable {a : Agent} {w w' : World} {τ : Turn}

theorem Handles.steps (h : Handles w τ w') :
    ReflTransGen (Step τ.env τ.input.aged) w.toAgent.world w' := by
  have hruns := @handle_runs τ.env τ.input w.toAgent.world
  rw [h] at hruns
  exact hruns.steps_of_ok

theorem Handles.sameNode (h : Handles w τ w') : w.SameNode w' := by
  have hsteps : w.toAgent.world.SameNode w' :=
    related_of_steps (P := World.SameNode) .refl (fun _ _ _ => .trans)
      (fun _ _ hs => hs.sameNode) h.steps
  exact ⟨hsteps.index, hsteps.eamrpMaxPaths, hsteps.eamrpPrimAltPathLenDiff⟩

/-- The node is the same at both ends of every move and at the end of the run. -/
theorem Run.sameNode {t : List (Move World Turn)} (h : Run t w) {m : Move World Turn}
    (hm : m ∈ t) : m.src.SameNode w ∧ m.tgt.SameNode w :=
  Lib.Run.related (P := World.SameNode) .refl (fun _ _ _ => .trans)
    (fun _ _ _ _ hs => Handles.sameNode hs) h hm

/-- Both ends of a move of a run are reachable. -/
theorem Run.reachable {t : List (Move World Turn)} (h : Run t w) {m : Move World Turn}
    (hm : m ∈ t) : m.src.toAgent.Reachable ∧ m.tgt.toAgent.Reachable := by
  obtain ⟨hr, hs⟩ := Lib.Run.of_mem h hm
  exact ⟨⟨_, hr, rfl⟩, ⟨_, hr.next hs, rfl⟩⟩

/-- What elementary steps preserve holds of every reachable agent. -/
theorem Reachable.induct {I : Agent → Prop} (hinit : ∀ i a, a.Initial i → I a)
    (hstep : ∀ env heard w w', Eamrp.Step env heard w w' → I w.toAgent → I w'.toAgent)
    (h : a.Reachable) : I a := by
  obtain ⟨w, hw, rfl⟩ := h
  refine Lib.Reachable.induct (I := fun w => I w.toAgent) ?_ ?_ hw
  · exact fun w hw => hinit _ _ hw.initial
  · intro w τ w' _ ih hs
    refine preserved_of_steps (I := fun w => I w.toAgent) ?_ hs.steps ih
    exact fun v v' hv hvs => hstep _ _ v v' hvs hv

/-- A fault of a reachable agent is blamed on an agent that elementary steps lead to. -/
theorem blame {env : Env} {inp : Input} {f : Fault}
    (h : handle env inp a.world = .error f) :
    ∃ w, ReflTransGen (Eamrp.Step env inp.aged) a.world w ∧ Blame inp.aged w f := by
  have hruns := @handle_runs env inp a.world
  rw [h] at hruns
  exact hruns.blame_of_error

/-! ### Playing a list of events -/

/-- An agent with the default limits, before its first event. -/
def idle (i : NsAddr) : World := { index := i }

theorem fresh_idle (i : NsAddr) : Fresh (idle i) := ⟨rfl, rfl⟩

/-- The state after an event; a fault leaves the state as it is. -/
def after (w : World) (τ : Turn) : World :=
  match handle τ.env τ.input w.toAgent.world with
  | .ok w' => w'
  | .error _ => w

/-- The moves of a list of events. -/
def moves (w : World) : List Turn → List (Move World Turn)
  | [] => []
  | τ :: l => ⟨w, τ, after w τ⟩ :: moves (after w τ) l

/-- The state after a list of events. -/
def final (w : World) : List Turn → World
  | [] => w
  | τ :: l => final (after w τ) l

/-- No event of the list faults. -/
def plays (w : World) : List Turn → Bool
  | [] => true
  | τ :: l => (handle τ.env τ.input w.toAgent.world).isOk && plays (after w τ) l

/-- Events that can be played continue a run. -/
theorem run_of_plays {t : List (Move World Turn)} {l : List Turn} (hw : Run t w)
    (h : plays w l = true) : Run (t ++ moves w l) (final w l) := by
  induction l generalizing t w with
  | nil => simpa [moves, final] using hw
  | cons τ l ih =>
    simp only [plays, Bool.and_eq_true] at h
    have hstep : Handles w τ (after w τ) := by
      unfold Handles after
      cases hh : handle τ.env τ.input w.toAgent.world with
      | ok w' => rfl
      | error f => simp [hh, Except.isOk, Except.toBool] at h
    have := ih (hw.move hstep) h.2
    simpa [moves, final] using this

/-- Events that can be played from the start make a run. -/
theorem run_idle {i : NsAddr} {l : List Turn} (h : plays (idle i) l = true) :
    Run (moves (idle i) l) (final (idle i) l) :=
  run_of_plays (t := []) (.start (fresh_idle i)) h

end Agent

/-- Every node of a network is a reachable agent. -/
theorem Net.Reachable.agent {P : Params} {s : Net} (h : s.Reachable P) (i : NsAddr) :
    (s.node i).Reachable := by
  refine Lib.Reachable.induct (I := fun s => (s.node i).Reachable) ?_ ?_ h
  · intro s h
    have hi : (s.node i).index = i := by rw [h.node i]
    refine ⟨(s.node i).world, .start ⟨?_, rfl⟩, rfl⟩
    change (s.node i).Initial (s.node i).index
    rw [hi]
    exact h.node i
  · intro s ev s' _ ih hs
    by_cases hi : i = ev.node
    · subst hi
      obtain ⟨w, hw, rfl⟩ := Net.next_ok hs.2
      obtain ⟨v, hv, heq⟩ := ih
      refine ⟨w, hv.next (l := ⟨ev.env, ev.input⟩) ?_, by simp⟩
      change handle ev.env ev.input v.toAgent.world = .ok w
      rw [heq, hw]
    · obtain ⟨w, -, rfl⟩ := Net.next_ok hs.2
      simpa [hi] using ih

end Eamrp
