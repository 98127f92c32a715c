import Turnstile.Chart.Reach

/-!
Auditing a chart for defects that show without running it.

An audit reports every defect that it finds: first what is wrong with the initial
state, then the states that are dead ends, and then, when there is one initial
state, the states that cannot be reached from it.  States are reported in the order
of their declaration.
-/

namespace Turnstile

inductive Defect where
  | noInitialState
  | severalInitialStates (states : List String)
  /-- No run may end in the state and no transition leads on from it. -/
  | deadEnd (state : String)
  | unreachable (state : String)
  deriving DecidableEq, Repr

def Defect.message : Defect → String
  | .noInitialState => "No state is flagged initial"
  | .severalInitialStates states =>
    "Several states are flagged initial: " ++ ", ".intercalate states
  | .deadEnd state => "State '" ++ state ++ "' is not final and has no outgoing transitions"
  | .unreachable state => "State '" ++ state ++ "' cannot be reached from the initial state"

namespace Chart

variable {σ ε : Type}

def initialDefects (c : Chart σ ε) : List Defect :=
  match c.initialStates with
  | [] => [.noInitialState]
  | [_] => []
  | several => [.severalInitialStates (several.map State.name)]

def isDeadEnd (c : Chart σ ε) (s : State) : Bool := !s.isFinal && (c.leaving s.name).isEmpty

def deadEnds (c : Chart σ ε) : List Defect :=
  (c.states.filter c.isDeadEnd).map fun s => .deadEnd s.name

/-- The states that cannot be reached from the only initial state. -/
def unreachables (c : Chart σ ε) : List Defect :=
  match c.initialStates with
  | [start] =>
    let reached := c.reachableFrom start.name
    (c.states.filter fun s => !reached.contains s.name).map fun s => .unreachable s.name
  | _ => []

def audit (c : Chart σ ε) : List Defect := c.initialDefects ++ c.deadEnds ++ c.unreachables

/-- Passes a chart without defects, and otherwise answers with all of them. -/
def validate (c : Chart σ ε) : Except (List Defect) Unit :=
  match c.audit with
  | [] => .ok ()
  | defects => .error defects

end Chart
end Turnstile
