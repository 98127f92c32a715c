import Turnstile.Chart.Basic
import Turnstile.Fault
import Turnstile.History
import Turnstile.Position

/-!
Machines: a chart together with a place in it.

A machine stands in one state of its chart.  It remembers the transition that led
there, if it has made one since it was put there, and a history of the passages it
has made.
-/

namespace Turnstile

variable {σ ε : Type}

structure Machine (σ ε : Type) where
  chart : Chart σ ε
  state : State
  /-- The transition that the machine made last. -/
  latest : Option (Transition σ ε)
  history : History

namespace Chart

/-- The state in which machines on the chart start, if there is just one. -/
def initialState (c : Chart σ ε) : Except Fault State :=
  match c.initialStates with
  | [] => .error .noInitialState
  | [start] => .ok start
  | several => .error (.severalInitialStates (several.map State.name))

/-- A machine in the initial state, with no history and no bound on it. -/
def start (c : Chart σ ε) : Except Fault (Machine σ ε) :=
  match c.initialState with
  | .error e => .error e
  | .ok state => .ok { chart := c, state, latest := none, history := History.empty }

end Chart

namespace Machine

/-- Puts the machine into a state.  What it has done is forgotten, but not the
bound on its history. -/
def moveTo (m : Machine σ ε) (state : State) : Machine σ ε :=
  { m with state, latest := none, history := m.history.cleared }

def reset (m : Machine σ ε) : Except Fault (Machine σ ε) :=
  match m.chart.initialState with
  | .error e => .error e
  | .ok state => .ok (m.moveTo state)

def save (m : Machine σ ε) : Position := { state := m.state.name }

/-- Puts the machine into the state of a position, if the chart has that state. -/
def restore (m : Machine σ ε) (p : Position) : Except Fault (Machine σ ε) :=
  match m.chart.state? p.state with
  | none => .error (.unknownState p.state)
  | some state => .ok (m.moveTo state)

/-- Keeps only so many of the latest passages, from now on. -/
def limitHistory (m : Machine σ ε) (limit : Nat) : Machine σ ε :=
  { m with history := m.history.restrict limit }

def possible (m : Machine σ ε) : List (Transition σ ε) := m.chart.leaving m.state.name

def canEnd (m : Machine σ ε) : Bool := m.state.isFinal

/-- The machine laid out for inspection, if its history is empty. -/
def inspect? (m : Machine σ ε) : Option String :=
  if m.history.isEmpty then
    some <| Text.Inspect.record "Machine"
      [("current_state", m.state.inspect),
        ("current_transition", Text.Inspect.option (m.latest.map Transition.inspect)),
        ("history", Text.Inspect.record "StateHistory"
          [("transitions", Text.Inspect.list []),
            ("limit", Text.Inspect.option (m.history.limit.map toString))])]
  else none

@[simp] theorem state_moveTo (m : Machine σ ε) (s : State) : (m.moveTo s).state = s := rfl

@[simp] theorem chart_moveTo (m : Machine σ ε) (s : State) : (m.moveTo s).chart = m.chart := rfl

@[simp] theorem chart_limitHistory (m : Machine σ ε) (n : Nat) :
    (m.limitHistory n).chart = m.chart := rfl

end Machine
end Turnstile
