import Turnstile.Ledger
import Turnstile.Text.Inspect

/-!
States and the flags that decide where a machine starts, where it may stop and
which states it only passes through.
-/

namespace Turnstile

/-- The three things that a state can be flagged as. -/
inductive Flag where
  | initial
  | final
  | transient
  deriving DecidableEq, Repr

/-- Which of the three flags are raised. -/
structure Flags where
  initial : Bool := false
  final : Bool := false
  transient : Bool := false
  deriving DecidableEq, Repr

namespace Flags

def empty : Flags := {}

def raise (fs : Flags) : Flag → Flags
  | .initial => { fs with initial := true }
  | .final => { fs with final := true }
  | .transient => { fs with transient := true }

def holds (fs : Flags) : Flag → Bool
  | .initial => fs.initial
  | .final => fs.final
  | .transient => fs.transient

/-- The listed flags raised, one after the other. -/
def ofList (flags : List Flag) : Flags := flags.foldl raise empty

/-- The raised flags, in the order initial, final, transient. -/
def toList (fs : Flags) : List Flag :=
  [Flag.initial, Flag.final, Flag.transient].filter fs.holds

def inspect (fs : Flags) : String :=
  Text.Inspect.record "StateOptions"
    [("initial", Text.Inspect.bool fs.initial), ("final", Text.Inspect.bool fs.final),
      ("transient", Text.Inspect.bool fs.transient)]

theorem holds_raise (fs : Flags) (flag other : Flag) :
    (fs.raise flag).holds other = (fs.holds other || flag == other) := by
  cases flag <;> cases other <;> simp [raise, holds]

/-- The flags raised by a list are the members of the list. -/
theorem holds_ofList (flags : List Flag) (flag : Flag) :
    (ofList flags).holds flag = flags.contains flag := by
  have fold : ∀ (flags : List Flag) (fs : Flags),
      (flags.foldl raise fs).holds flag = (fs.holds flag || flags.contains flag) := by
    intro flags
    induction flags with
    | nil => simp
    | cons f rest ih =>
      intro fs
      rw [List.foldl_cons, ih, holds_raise, List.contains_cons, Bool.or_assoc]
      congr 2
      cases f <;> cases flag <;> rfl
  rw [ofList, fold]
  cases flag <;> rfl

end Flags

structure State where
  name : String
  flags : Flags
  deriving DecidableEq, Repr

namespace State

def isInitial (s : State) : Bool := s.flags.initial

def isFinal (s : State) : Bool := s.flags.final

def isTransient (s : State) : Bool := s.flags.transient

/-- A run passes straight through the state: it is transient, and no run may end
in it. -/
def advances (s : State) : Bool := s.isTransient && !s.isFinal

def inspect (s : State) : String :=
  Text.Inspect.record "State"
    [("name", Text.Inspect.quoted s.name), ("options", s.flags.inspect)]

end State
end Turnstile
