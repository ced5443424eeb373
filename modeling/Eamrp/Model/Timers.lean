import Eamrp.Model.Network

/-!
# The timers

`eamrp.cc:67–77` and `eamrp.cc:148–179`: the command `start` and the four timers, which the
scheduler calls back in order of time and which set themselves again. An agent and its timers
change by one event at a time: the command, a timer that is due, or an input from outside.
-/

namespace Eamrp

/-- `MinHelloInterval`; `eamrp.h:110`. -/
def minHelloInterval : Time := 3 / 4 * helloInterval

/-- `MaxHelloInterval`; `eamrp.h:109`. -/
def maxHelloInterval : Time := 5 / 4 * helloInterval

/-- `FREQUENCY`; `eamrp.cc:177`. -/
def frequency : Time := 1 / 2

/-- The members `btimer`, `htimer`, `ntimer` and `rtimer` of the agent. -/
inductive Timer where
  | btimer
  | htimer
  | ntimer
  | rtimer
  deriving DecidableEq, Repr

namespace Timer

/-- What `handle` of the timer makes the agent do. -/
def input : Timer → Input
  | .btimer => .broadcastTimer
  | .htimer => .helloTimer
  | .ntimer => .neighborTimer
  | .rtimer => .routeCacheTimer

/-- The delay after which `handle` schedules the timer again. -/
def interval (env : Env) : Timer → Time
  | .btimer => bcastIdSave
  | .htimer => minHelloInterval + (maxHelloInterval - minHelloInterval) * env.uniform
  | .ntimer => helloInterval
  | .rtimer => frequency

end Timer

/-- An agent, the simulated time and the times its timers are scheduled for. `world` holds the
effects of the last event. -/
structure Timed where
  world : World
  clock : Time := 0
  due : Timer → Option Time := fun _ => none

namespace Timed

/-- `handle` of a timer, lines 148–179. -/
def handle (env : Env) (k : Timer) (s : Timed) : Except Fault Timed := do
  let w ← Eamrp.handle env k.input s.world.toAgent.world
  return { world := { w with out := s.world.out ++ w.out }
           clock := env.now
           due := Function.update s.due k (some (env.now + k.interval env)) }

/-- The command `start`, lines 67–77, without `EAMRP_LINK_LAYER_DETECTION`. -/
def start (env : Env) (s : Timed) : Except Fault Timed := do
  let s ← s.handle env .btimer
  let s ← s.handle env .htimer
  let s ← s.handle env .ntimer
  s.handle env .rtimer

/-- What can happen to an agent and its timers. -/
inductive Event where
  | start (env : Env)
  | fire (k : Timer) (env : Env)
  | input (env : Env) (inp : Input)

def Event.env : Event → Env
  | .start env => env
  | .fire _ env => env
  | .input env _ => env

/-- The agent before an event, without the effects of the one before. -/
def quiet (s : Timed) : Timed := { s with world := s.world.toAgent.world }

/-- One event. A fault of a handler ends the run. -/
def next (s : Timed) : Event → Except Fault Timed
  | .start env => s.quiet.start env
  | .fire k env => s.quiet.handle env k
  | .input env inp => do
    let w ← Eamrp.handle env inp s.world.toAgent.world
    return { s with world := w, clock := env.now }

/-- An event that can happen next. The scheduler passes no timer over, and aborts when one is
scheduled twice, so `start` is given once. -/
structure Enabled (s : Timed) (ev : Event) : Prop where
  clock : s.clock ≤ ev.env.now
  due : ∀ k t, s.due k = some t → ev.env.now ≤ t
  uniform : 0 ≤ ev.env.uniform ∧ ev.env.uniform ≤ 1
  start : ∀ env, ev = .start env → ∀ k, s.due k = none
  fire : ∀ k env, ev = .fire k env → s.due k = some env.now
  input : ∀ env inp, ev = .input env inp → ∀ k : Timer, inp ≠ k.input

/-- One step of an agent and its timers. -/
def Step (s : Timed) (ev : Event) (s' : Timed) : Prop := s.Enabled ev ∧ s.next ev = .ok s'

/-- An agent before its first event, at time 0 and with no timer running. -/
structure Initial (s : Timed) : Prop where
  agent : s.world.toAgent.Initial s.world.index
  out : s.world.out = []
  clock : s.clock = 0
  due : ∀ k, s.due k = none

end Timed

end Eamrp
