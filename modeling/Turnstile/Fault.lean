import Turnstile.Transition

/-!
Why a machine could not be set up or could not go on.
-/

namespace Turnstile

/-- The three kinds of callables that a handler knows by name. -/
inductive CallableKind where
  | condition
  | action
  | hook
  deriving DecidableEq, Repr

def CallableKind.name : CallableKind → String
  | .condition => "condition"
  | .action => "action"
  | .hook => "hook"

inductive Fault where
  /-- No transition leads on from the state, and no run may end in it. -/
  | stuck (state : String)
  | ambiguous (state : String) (targets : List String)
  | noInitialState
  | severalInitialStates (states : List String)
  | unknownState (name : String)
  | unknownCallable (kind : CallableKind) (name : String)
  | failed (source target : String) (failure : Failure)
  deriving DecidableEq, Repr

namespace Fault

def message : Fault → String
  | .stuck state => "Cannot transition anywhere from " ++ state
  | .ambiguous state targets =>
    "Cannot deterministically transition anywhere from " ++ state ++ ". Possibilities are "
      ++ ", ".intercalate targets
  | .noInitialState => "There is no initial state"
  | .severalInitialStates states =>
    "Cannot determine initial state. Possibilities are " ++ ", ".intercalate states
  | .unknownState name => "Unknown state '" ++ name ++ "'"
  | .unknownCallable kind name => "Handler does not know " ++ kind.name ++ " '" ++ name ++ "'"
  | .failed source target failure =>
    "Transition " ++ source ++ " -> " ++ target ++ " failed: " ++ failure.message

end Fault
end Turnstile
