import Turnstile.Machine.Basic
import Turnstile.Machine.Call
import Turnstile.Machine.Survey

/-!
Steps of a machine.

A step surveys the transitions from the machine's state.  If just one of them is
open, the machine makes it: hooks, action and hooks again are called, and then the
machine stands in the target.  What goes wrong in the calls does not undo the step;
the first fault among them is reported with it.  If none is open the run has come to
its end, or the machine is stuck, as the state's flags say.
-/

namespace Turnstile

variable {σ ε : Type}

/-- A machine and what its handler remembers. -/
structure Session (σ ε : Type) where
  machine : Machine σ ε
  memory : σ

inductive StepResult where
  /-- A transition was made, and `deferred` is the first fault among its calls. -/
  | moved (source target : String) (deferred : Option Fault)
  /-- No transition is open and the run may end. -/
  | finished (state : String)
  deriving DecidableEq, Repr

namespace StepResult

def state : StepResult → String
  | .moved _ target _ => target
  | .finished state => state

def deferred : StepResult → Option Fault
  | .moved _ _ deferred => deferred
  | .finished _ => none

/-- The result of a step as an error when it has put one off. -/
def propagate (r : StepResult) : Except Fault StepResult :=
  match r.deferred with
  | some fault => .error fault
  | none => .ok r

end StepResult

namespace Machine

/-- Puts the machine behind a transition. -/
def commit (m : Machine σ ε) (t : Transition σ ε) (target : State) (now : Instant) :
    Machine σ ε :=
  { m with
    state := target
    latest := some t
    history := m.history.record { source := t.source, target := t.target, time := now } }

end Machine

namespace Session

/-- Makes a transition: calls what it calls and puts the machine behind it. -/
def perform (h : Handler σ ε) (now : Instant) (event : Option ε) (t : Transition σ ε)
    (s : Session σ ε) : Except Fault StepResult × Session σ ε :=
  match s.machine.chart.state? t.target with
  | none => (.error (.unknownState t.target), s)
  | some target =>
    let (fault, memory) := Call.makeAll h t event (t.calls s.machine.chart.hooks) s.memory
    (.ok (.moved t.source t.target fault), { machine := s.machine.commit t target now, memory })

/-- Goes on from the transitions that a survey found open. -/
def proceed (h : Handler σ ε) (now : Instant) (event : Option ε) (s : Session σ ε) :
    List (Transition σ ε) → Except Fault StepResult × Session σ ε
  | [] =>
    let state := s.machine.state
    if state.isTransient || !state.isFinal then (.error (.stuck state.name), s)
    else (.ok (.finished state.name), { s with memory := h.finished s.memory })
  | [t] => s.perform h now event t
  | several => (.error (.ambiguous s.machine.state.name (several.map Transition.target)), s)

/-- One step of the machine at the time `now`, on an event if there is one. -/
def step (h : Handler σ ε) (now : Instant) (event : Option ε) (s : Session σ ε) :
    Except Fault StepResult × Session σ ε :=
  let leaving := s.machine.possible
  let told := { s with memory := h.tell event s.memory (h.answers event s.memory leaving) }
  match h.survey event s.memory leaving with
  | .error fault => (.error fault, told)
  | .ok found => told.proceed h now event found

end Session
end Turnstile
