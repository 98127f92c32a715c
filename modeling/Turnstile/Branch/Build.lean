import Turnstile.Branch.Outline

/-!
Building an outline by following handles to its branches.

Each call on a handle either completes the handle's branch or adds a branch below
it, and answers with the handle of the branch it has worked on.  A call that is
refused leaves the outline as it was.  The calls are first given as functions on
outlines and then as steps of a build, in which the outline is the state and the
first refusal ends the rest; what was built before it stays in the outline.
-/

namespace Turnstile

inductive BranchError where
  | sourceAlreadySet (name : String)
  | targetAlreadySet (name : String)
  | elseWithoutCondition
  | stayWithoutSource
  deriving DecidableEq, Repr

def BranchError.message : BranchError → String
  | .sourceAlreadySet name => "Source state already set to '" ++ name ++ "'"
  | .targetAlreadySet name => "Target state already set to '" ++ name ++ "'"
  | .elseWithoutCondition =>
    "Cannot create an else branch without a condition. Call .when(condition) first"
  | .stayWithoutSource => "Cannot stay without a source state. Call .from(state) first"

/-- The place of a branch in its outline. -/
structure Handle where
  number : Nat
  deriving DecidableEq, Repr

def Handle.root : Handle := { number := 0 }

variable {σ ε : Type}

namespace Outline

/-- The branch of a handle.  Nothing is known of a branch that is not there. -/
def branch (o : Outline σ ε) (h : Handle) : Branch σ ε :=
  match o.find? h.number with
  | some (b, _) => b
  | none => {}

def under (o : Outline σ ε) (h : Handle) : Outline σ ε :=
  match o.find? h.number with
  | some (_, below) => below
  | none => .nil

def transitionsFrom (o : Outline σ ε) (h : Handle) : List (Transition σ ε) :=
  (o.branch h).transition?.toList ++ (o.under h).transitions

def spawn (o : Outline σ ε) (h : Handle) (b : Branch σ ε) : Handle × Outline σ ε :=
  ({ number := o.size }, o.grow h.number o.size b)

def revise (o : Outline σ ε) (h : Handle) (f : Branch σ ε → Branch σ ε) :
    Handle × Outline σ ε :=
  (h, o.update h.number f)

/-- Adds a branch with a source, below a branch that has none. -/
def startAt (o : Outline σ ε) (h : Handle) (name : String) :
    Except BranchError (Handle × Outline σ ε) :=
  match (o.branch h).source with
  | some source => .error (.sourceAlreadySet source)
  | none => .ok (o.spawn h { source := some name })

/-- Adds a branch that goes the same way under a condition. -/
def onlyIf (o : Outline σ ε) (h : Handle) (c : Condition σ ε) : Handle × Outline σ ε :=
  let b := o.branch h
  o.spawn h { source := b.source, target := b.target, condition := some c }

/-- Adds a branch that goes the same way unless a condition holds. -/
def onlyUnless (o : Outline σ ε) (h : Handle) (c : Condition σ ε) : Handle × Outline σ ε :=
  let b := o.branch h
  o.spawn h { source := b.source, target := b.target, condition := some c, negate := true }

/-- Adds a branch for the case that the branch's condition fails, with a target of
its own. -/
def otherwise (o : Outline σ ε) (h : Handle) : Except BranchError (Handle × Outline σ ε) :=
  let b := o.branch h
  match b.condition with
  | none => .error .elseWithoutCondition
  | some c => .ok (o.spawn h { source := b.source, condition := some c, negate := !b.negate })

/-- Adds a branch under another condition, with a target of its own. -/
def otherwiseIf (o : Outline σ ε) (h : Handle) (c : Condition σ ε) : Handle × Outline σ ε :=
  o.spawn h { source := (o.branch h).source, condition := some c }

def goTo (o : Outline σ ε) (h : Handle) (name : String) :
    Except BranchError (Handle × Outline σ ε) :=
  match (o.branch h).target with
  | some target => .error (.targetAlreadySet target)
  | none => .ok (o.revise h fun b => { b with target := some name })

/-- Makes the branch lead back to its source. -/
def stay (o : Outline σ ε) (h : Handle) : Except BranchError (Handle × Outline σ ε) :=
  match (o.branch h).source with
  | none => .error .stayWithoutSource
  | some source => o.goTo h source

def doing (o : Outline σ ε) (h : Handle) (a : Action σ ε) : Handle × Outline σ ε :=
  o.revise h fun b => { b with action := some a }

def describe (o : Outline σ ε) (h : Handle) (text : String) : Handle × Outline σ ε :=
  o.revise h fun b => { b with description := some text }

end Outline

/-- Builds of an outline among the effects of `m`.  A refusal ends the build and
leaves the outline as far as it was built. -/
abbrev BuildT (σ ε : Type) (m : Type → Type) := ExceptT BranchError (StateT (Outline σ ε) m)

abbrev Build (σ ε : Type) := BuildT σ ε Id

namespace BuildT

variable {m : Type → Type} [Monad m]

def call (f : Outline σ ε → Except BranchError (Handle × Outline σ ε)) : BuildT σ ε m Handle :=
  do
    match f (← get) with
    | .ok (h, o) =>
      set o
      return h
    | .error e => throw e

/-- Runs a build on an outline and answers with its result and the outline that it
leaves. -/
def runOn {α : Type} (b : BuildT σ ε m α) (o : Outline σ ε) :
    m (Except BranchError α × Outline σ ε) :=
  StateT.run (ExceptT.run b) o

end BuildT

namespace Handle

variable {m : Type → Type} [Monad m]

def startAt (h : Handle) (name : String) : BuildT σ ε m Handle :=
  BuildT.call fun o => o.startAt h name

/-- Adds a branch with a source, builds on it by `body`, and answers with this
handle again. -/
def startAtWith (h : Handle) (name : String) (body : Handle → BuildT σ ε m Unit) :
    BuildT σ ε m Handle := do
  let child ← h.startAt name
  body child
  return h

def onlyIf (h : Handle) (c : Condition σ ε) : BuildT σ ε m Handle :=
  BuildT.call fun o => .ok (o.onlyIf h c)

def onlyUnless (h : Handle) (c : Condition σ ε) : BuildT σ ε m Handle :=
  BuildT.call fun o => .ok (o.onlyUnless h c)

def otherwise (h : Handle) : BuildT σ ε m Handle := BuildT.call fun o => o.otherwise h

def otherwiseIf (h : Handle) (c : Condition σ ε) : BuildT σ ε m Handle :=
  BuildT.call fun o => .ok (o.otherwiseIf h c)

def goTo (h : Handle) (name : String) : BuildT σ ε m Handle :=
  BuildT.call fun o => o.goTo h name

def stay (h : Handle) : BuildT σ ε m Handle := BuildT.call fun o => o.stay h

def doing (h : Handle) (a : Action σ ε) : BuildT σ ε m Handle :=
  BuildT.call fun o => .ok (o.doing h a)

def describe (h : Handle) (text : String) : BuildT σ ε m Handle :=
  BuildT.call fun o => .ok (o.describe h text)

def isComplete (h : Handle) : BuildT σ ε m Bool := do
  return ((← get).branch h).isComplete

def transitions (h : Handle) : BuildT σ ε m (List (Transition σ ε)) := do
  return (← get).transitionsFrom h

end Handle
end Turnstile
