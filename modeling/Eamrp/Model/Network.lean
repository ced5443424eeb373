import Eamrp.Model.Receive
import Eamrp.Lib.Runs

/-!
# Networks

Agents joined by a medium that may delay, reorder, duplicate or lose packets. A packet
handed to `target_` is in flight for ever after and may be received any number of times: a
broadcast by any node, a unicast by its `next_hop_` only. Packets of other protocols may
reach an agent at any time and with any headers, as may the link-layer callback, the timers
and changes of the interface queue.
-/

namespace Eamrp

/-- What is fixed for a whole run: the addresses of the nodes and the reading of
`INFINITY`. -/
structure Params where
  nodes : Finset NsAddr
  inf : Infinity

/-- The state of a network. -/
structure Net where
  node : NsAddr → Agent
  flight : List Packet := []
  clock : Time := 0

/-- One event at one node. -/
structure Event where
  node : NsAddr
  env : Env
  input : Input

/-- The constructor `EAMRP::EAMRP` and the variables bound to Tcl, lines 184–209. -/
def Agent.Initial (i : NsAddr) (a : Agent) : Prop :=
  a = { index := i, eamrpMaxPaths := a.eamrpMaxPaths,
        eamrpPrimAltPathLenDiff := a.eamrpPrimAltPathLenDiff }

/-- An agent between two events. -/
def Agent.world (a : Agent) : World := { toAgent := a }

namespace Net

/-- Agents before their first event and nothing in flight. -/
structure Initial (s : Net) : Prop where
  node : ∀ i, (s.node i).Initial i
  flight : s.flight = []

/-- The packet as the receiver's `recv` gets it: the common header has been turned to
`hdr_cmn::UP` and the hop has been counted. -/
def arrive (p : Packet) : Packet :=
  { p with ch := { p.ch with direction := .up, numForwards := p.ch.numForwards + 1 } }

/-- The link layer delivers the packet to node `i`. -/
def Addressed (p : Packet) (i : NsAddr) : Prop := p.ch.addrType = .none ∨ p.ch.nextHop = i

instance (p : Packet) (i : NsAddr) : Decidable (Addressed p i) :=
  inferInstanceAs (Decidable (_ ∨ _))

/-- The medium or the node itself offers this input to node `i`. -/
def Offers (s : Net) (i : NsAddr) : Input → Prop
  | .recv q => q.isEamrp = true → ∃ p ∈ s.flight, Addressed p i ∧ q = arrive p
  | _ => True

instance (s : Net) (i : NsAddr) (inp : Input) : Decidable (s.Offers i inp) :=
  match inp with
  | .recv q => inferInstanceAs
      (Decidable (q.isEamrp = true → ∃ p ∈ s.flight, Addressed p i ∧ q = arrive p))
  | .rtLlFailed _ => isTrue trivial
  | .broadcastTimer => isTrue trivial
  | .helloTimer => isTrue trivial
  | .neighborTimer => isTrue trivial
  | .routeCacheTimer => isTrue trivial
  | .ifqueue _ => isTrue trivial

/-- Node `i` handles one event. A fault of the handler ends the run. -/
def next (s : Net) (ev : Event) : Except Fault Net := do
  let w ← handle ev.env ev.input (s.node ev.node).world
  return { node := Function.update s.node ev.node w.toAgent
           flight := s.flight ++ w.sent
           clock := ev.env.now }

/-- An event that can happen next. -/
structure Enabled (P : Params) (s : Net) (ev : Event) : Prop where
  node : ev.node ∈ P.nodes
  inf : ev.env.inf = P.inf
  clock : s.clock ≤ ev.env.now
  offers : s.Offers ev.node ev.input

/-- One step of the network. -/
def Step (P : Params) (s : Net) (ev : Event) (s' : Net) : Prop :=
  s.Enabled P ev ∧ s.next ev = .ok s'

/-- The reachable states of a network. -/
def Reachable (P : Params) (s : Net) : Prop := Lib.Reachable Initial (Step P) s

/-- The runs of a network. -/
def Run (P : Params) (t : List (Lib.Move Net Event)) (s : Net) : Prop :=
  Lib.Run Initial (Step P) t s

/-! ### Playing a list of events -/

/-- Agents with the default limits, before their first event. -/
def idle : Net := { node := fun i => { index := i } }

theorem initial_idle : idle.Initial := ⟨fun _ => rfl, rfl⟩

/-- An event that is picked in a given state. -/
abbrev Cue := Net → Event

/-- Node `i` is handed a data packet of its own for `d`. -/
def Cue.app (inf : Infinity) (now : Time) (i d : NsAddr) : Cue := fun _ =>
  ⟨i, { now, inf }, .recv { ih := { saddr := i, daddr := d }, body := .app true }⟩

/-- Node `i` receives the packet that was the `n`-th to be sent. -/
def Cue.hear (inf : Infinity) (now : Time) (i : NsAddr) (n : ℕ) : Cue := fun s =>
  ⟨i, { now, inf }, match s.flight[n]? with
    | some p => .recv (arrive p)
    | none => .broadcastTimer⟩

/-- A timer of node `i` fires. -/
def Cue.timer (inf : Infinity) (now : Time) (i : NsAddr) (inp : Input) : Cue := fun _ =>
  ⟨i, { now, inf }, inp⟩

/-- The state after an event; a fault leaves the state as it is. -/
def after (s : Net) (c : Cue) : Net :=
  match s.next (c s) with
  | .ok s' => s'
  | .error _ => s

/-- The moves of a list of events. -/
def moves (s : Net) : List Cue → List (Lib.Move Net Event)
  | [] => []
  | c :: cs => ⟨s, c s, s.after c⟩ :: (s.after c).moves cs

/-- The state after a list of events. -/
def final (s : Net) : List Cue → Net
  | [] => s
  | c :: cs => (s.after c).final cs

/-- The event can happen and does not fault. -/
def accepts (P : Params) (s : Net) (ev : Event) : Bool :=
  decide (ev.node ∈ P.nodes) && decide (ev.env.inf = P.inf) && decide (s.clock ≤ ev.env.now) &&
    decide (s.Offers ev.node ev.input) && (s.next ev).isOk

/-- The events can happen one after the other. -/
def plays (P : Params) (s : Net) : List Cue → Bool
  | [] => true
  | c :: cs => s.accepts P (c s) && (s.after c).plays P cs

theorem step_of_accepts {P : Params} {s : Net} {c : Cue} (h : s.accepts P (c s) = true) :
    Step P s (c s) (s.after c) := by
  simp only [accepts, Bool.and_eq_true, decide_eq_true_eq] at h
  obtain ⟨⟨⟨⟨hnode, hinf⟩, hclock⟩, hoffers⟩, hok⟩ := h
  refine ⟨⟨hnode, hinf, hclock, hoffers⟩, ?_⟩
  unfold after
  cases hn : s.next (c s) with
  | ok s' => rfl
  | error f => simp [hn, Except.isOk, Except.toBool] at hok

/-- Events that can be played continue a run. -/
theorem run_of_plays {P : Params} {t : List (Lib.Move Net Event)} {s : Net} {cs : List Cue}
    (hs : Run P t s) (h : s.plays P cs = true) : Run P (t ++ s.moves cs) (s.final cs) := by
  induction cs generalizing t s with
  | nil => simpa [moves, final] using hs
  | cons c cs ih =>
    simp only [plays, Bool.and_eq_true] at h
    have := ih (hs.move (step_of_accepts h.1)) h.2
    simpa [moves, final] using this

/-- Events that can be played from the start make a run. -/
theorem run_idle {P : Params} {cs : List Cue} (h : idle.plays P cs = true) :
    Run P (idle.moves cs) (idle.final cs) :=
  run_of_plays (t := []) (.start initial_idle) h

/-- Three nodes. -/
def three (inf : Infinity) : Params := ⟨{1, 2, 3}, inf⟩

/-- Node 1 discovers a route to node 3 over node 2. -/
def discovery (inf : Infinity) : List Cue :=
  [.app inf 0 1 3, .hear inf 0 2 0, .hear inf 0 3 1, .hear inf 0 2 2, .hear inf 0 1 3]

theorem run_discovery (inf : Infinity) :
    Run (three inf) (idle.moves (discovery inf)) (idle.final (discovery inf)) := by
  cases inf <;> exact run_idle (by decide +kernel)

theorem reachable_discovery (inf : Infinity) :
    (idle.final (discovery inf)).Reachable (three inf) := ⟨_, run_discovery inf⟩

/-- No node's own sequence number has wrapped. -/
def NoWrap (s : Net) : Prop := ∀ i, (s.node i).seqnoWrapped = false

/-- The entry of node `i` for `d`. -/
def entry (s : Net) (i d : NsAddr) : Option RtEntry := (s.node i).rtable.rtLookup d

end Net

/-- The packets a move hands to the medium. -/
def sentBy (m : Lib.Move Net Event) : List Packet := m.tgt.flight.drop m.src.flight.length

end Eamrp
