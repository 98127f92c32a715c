import Turnstile.Branch.Build
import Turnstile.Chart.Basic

/-!
Declaring a chart: states first, then the transitions between them.

A transition may be declared only between declared states.  Transitions that are
added together are added all or none, and so are those of an outline.
-/

namespace Turnstile

inductive Side where
  | source
  | target
  deriving DecidableEq, Repr

def Side.name : Side → String
  | .source => "from"
  | .target => "to"

inductive DeclareError where
  | unknownState (side : Side) (name : String)
  | branch (error : BranchError)
  deriving DecidableEq, Repr

def DeclareError.message : DeclareError → String
  | .unknownState side name =>
    "Cannot create transition " ++ side.name ++ " unknown state '" ++ name ++ "'"
  | .branch error => error.message

variable {σ ε : Type}

namespace Chart

/-- Declares a state, or declares it anew in its old place. -/
def declareState (c : Chart σ ε) (name : String) (flags : Flags) : Chart σ ε :=
  let flags := if c.allTransient then flags.raise .transient else flags
  { c with flags := c.flags.insert name flags }

def declareStates (c : Chart σ ε) (states : List State) : Chart σ ε :=
  states.foldl (fun c s => c.declareState s.name s.flags) c

/-- Makes every state that is declared from now on transient. -/
def makeAllTransient (c : Chart σ ε) : Chart σ ε := { c with allTransient := true }

def registerHook (c : Chart σ ε) (hook : Hook σ ε) : Chart σ ε :=
  { c with hooks := c.hooks ++ [hook] }

/-- Both ends of a transition are declared; the source is looked at first. -/
def checkEnds (c : Chart σ ε) (source target : String) : Except DeclareError Unit :=
  if (c.state? source).isNone then .error (.unknownState .source source)
  else if (c.state? target).isNone then .error (.unknownState .target target)
  else .ok ()

def declareTransition (c : Chart σ ε) (t : Transition σ ε) : Except DeclareError (Chart σ ε) :=
  match c.checkEnds t.source t.target with
  | .error e => .error e
  | .ok () => .ok { c with table := c.table.add t }

def disable (c : Chart σ ε) (source target : String) : Except DeclareError (Chart σ ε) :=
  match c.checkEnds source target with
  | .error e => .error e
  | .ok () => .ok { c with table := c.table.clear source target }

/-- The ends of all of the transitions are declared; the first that is not decides
the refusal. -/
def checkAll (c : Chart σ ε) : List (Transition σ ε) → Except DeclareError Unit
  | [] => .ok ()
  | t :: ts =>
    match c.checkEnds t.source t.target with
    | .error e => .error e
    | .ok () => c.checkAll ts

/-- Adds transitions, all of them or none. -/
def addTransitions (c : Chart σ ε) (ts : List (Transition σ ε)) :
    Except DeclareError (Chart σ ε) :=
  match c.checkAll ts with
  | .error e => .error e
  | .ok () => .ok { c with table := ts.foldl Table.add c.table }

/-- Adds the transitions of an outline that has been built, or passes on why it
could not be built. -/
def addOutline (c : Chart σ ε) (built : Except BranchError Unit × Outline σ ε) :
    Except DeclareError (Chart σ ε) :=
  match built with
  | (.error e, _) => .error (.branch e)
  | (.ok (), o) => c.addTransitions (o.transitionsFrom Handle.root)

def define {m : Type → Type} [Monad m] (c : Chart σ ε) (body : Handle → BuildT σ ε m Unit) :
    m (Except DeclareError (Chart σ ε)) := do
  return c.addOutline (← (body Handle.root).runOn Outline.root)

@[simp] theorem checkEnds_eq_ok_iff {c : Chart σ ε} {source target : String} :
    c.checkEnds source target = .ok () ↔
      (c.state? source).isSome ∧ (c.state? target).isSome := by
  unfold checkEnds
  cases c.state? source <;> cases c.state? target <;> simp

end Chart
end Turnstile
