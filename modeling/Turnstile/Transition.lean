import Turnstile.Text.Inspect

/-!
Transitions and what they call.

A chart is declared over the type `σ` of what a handler remembers and the type `ε`
of events.  A condition, an action or a hook is either a name, which the handler
gives its meaning, or a function that carries its meaning with it.  A condition
reads what the handler remembers, while actions and hooks may change it.
-/

namespace Turnstile

/-- What a callable says when it could not do its job. -/
structure Failure where
  message : String
  deriving DecidableEq, Repr

/-- The test that guards a transition. -/
inductive Condition (σ ε : Type) where
  | named (name : String)
  | predicate (tag : String) (holds : σ → Option ε → Bool)

/-- What is done while a transition is made. -/
inductive Action (σ ε : Type) where
  | named (name : String)
  | callback (run : Option ε → σ → Except Failure Unit × σ)

/-- A way from one state to another.  It has at most one condition, and `negate`
turns the condition around. -/
structure Transition (σ ε : Type) where
  source : String
  target : String
  condition : Option (Condition σ ε) := none
  negate : Bool := false
  action : Option (Action σ ε) := none
  description : Option String := none

/-- The two sides of a transition's action on which hooks are called. -/
inductive Phase where
  | before
  | after
  deriving DecidableEq, Repr

/-- What is called around every transition of a chart, whichever it is. -/
inductive Hook (σ ε : Type) where
  | named (name : String)
  | callback (run : Phase → Transition σ ε → Option ε → σ → σ)

variable {σ ε : Type}

/-- What a callable without a name is called. -/
def namelessLabel : String := "<closure>"

namespace Condition

/-- The name of a condition, or the tag that a predicate carries. -/
def label : Condition σ ε → String
  | .named name => name
  | .predicate tag _ => tag

def inspect : Condition σ ε → String
  | .named name => Text.Inspect.wrapped "Named" (Text.Inspect.quoted name)
  | .predicate tag _ => Text.Inspect.wrapped "Predicate" (Text.Inspect.quoted tag)

end Condition

namespace Action

/-- A function that cannot fail, as an action. -/
def infallible (run : Option ε → σ → σ) : Action σ ε :=
  .callback fun event x => (.ok (), run event x)

def label : Action σ ε → String
  | .named name => name
  | .callback _ => namelessLabel

def inspect : Action σ ε → String
  | .named name => Text.Inspect.wrapped "Named" (Text.Inspect.quoted name)
  | .callback _ => Text.Inspect.wrapped "Callback" namelessLabel

end Action

namespace Hook

def label : Hook σ ε → String
  | .named name => name
  | .callback _ => namelessLabel

def inspect : Hook σ ε → String
  | .named name => Text.Inspect.wrapped "Named" (Text.Inspect.quoted name)
  | .callback _ => Text.Inspect.wrapped "Callback" namelessLabel

end Hook

namespace Phase

def name : Phase → String
  | .before => "before"
  | .after => "after"

end Phase

namespace Transition

def text (t : Transition σ ε) : String := t.source ++ " -> " ++ t.target

/-- The label of the condition, behind an exclamation mark when it is turned
around. -/
def guardLabel (t : Transition σ ε) : Option String :=
  t.condition.map fun c => (if t.negate then "!" else "") ++ c.label

def inspect (t : Transition σ ε) : String :=
  Text.Inspect.record "Transition"
    [("from", Text.Inspect.quoted t.source),
      ("to", Text.Inspect.quoted t.target),
      ("condition", Text.Inspect.option (t.condition.map Condition.inspect)),
      ("negate", Text.Inspect.bool t.negate),
      ("action", Text.Inspect.option (t.action.map Action.inspect)),
      ("description", Text.Inspect.option (t.description.map Text.Inspect.quoted))]

end Transition
end Turnstile
