import Turnstile.Transition

/-!
Outlines: trees of branches from which transitions are read off.

A branch says what is known of one transition.  Branches that refine a branch stand
below it, in the order in which they were added, and every branch is numbered by
its place in the order in which all branches of the outline were made.  The
transitions of an outline are those of its complete branches, each branch before
the branches below it.

An outline is stored as a forest: a branch holds the first branch below it and the
next branch beside it.  Every function on outlines is then one recursion over a
plain inductive type.
-/

namespace Turnstile

/-- What is known of one transition: all that a transition holds, with the source
and the target left open as long as they are not known. -/
structure Branch (σ ε : Type) where
  source : Option String := none
  target : Option String := none
  condition : Option (Condition σ ε) := none
  negate : Bool := false
  action : Option (Action σ ε) := none
  description : Option String := none

variable {σ ε : Type}

namespace Branch

def isComplete (b : Branch σ ε) : Bool := b.source.isSome && b.target.isSome

/-- The transition that a complete branch describes. -/
def transition? (b : Branch σ ε) : Option (Transition σ ε) :=
  match b.source, b.target with
  | some source, some target =>
    some
      { source, target, condition := b.condition, negate := b.negate, action := b.action,
        description := b.description }
  | _, _ => none

theorem isSome_transition? (b : Branch σ ε) : b.transition?.isSome = b.isComplete := by
  unfold transition? isComplete
  cases b.source <;> cases b.target <;> rfl

end Branch

/-- A row of branches side by side, each with the branches below it. -/
inductive Outline (σ ε : Type) where
  | nil
  | node (number : Nat) (branch : Branch σ ε) (below beside : Outline σ ε)

namespace Outline

/-- The outline of a single branch of which nothing is known. -/
def root : Outline σ ε := .node 0 {} .nil .nil

def size : Outline σ ε → Nat
  | .nil => 0
  | .node _ _ below beside => below.size + beside.size + 1

/-- The numbers of the branches, each branch before those below it. -/
def numbers : Outline σ ε → List Nat
  | .nil => []
  | .node n _ below beside => n :: (below.numbers ++ beside.numbers)

def find? (number : Nat) : Outline σ ε → Option (Branch σ ε × Outline σ ε)
  | .nil => none
  | .node n b below beside =>
    if n = number then some (b, below)
    else
      match below.find? number with
      | some found => some found
      | none => beside.find? number

/-- The transitions of the complete branches, each branch before those below it. -/
def transitions : Outline σ ε → List (Transition σ ε)
  | .nil => []
  | .node _ b below beside => b.transition?.toList ++ below.transitions ++ beside.transitions

def update (number : Nat) (f : Branch σ ε → Branch σ ε) : Outline σ ε → Outline σ ε
  | .nil => .nil
  | .node n b below beside =>
    if n = number then .node n (f b) below beside
    else .node n b (below.update number f) (beside.update number f)

/-- Adds a branch beside the others, as the last of them. -/
def append (number : Nat) (branch : Branch σ ε) : Outline σ ε → Outline σ ε
  | .nil => .node number branch .nil .nil
  | .node n b below beside => .node n b below (beside.append number branch)

/-- Adds a branch below the branch numbered `parent`, as the last of those there. -/
def grow (parent number : Nat) (branch : Branch σ ε) : Outline σ ε → Outline σ ε
  | .nil => .nil
  | .node n b below beside =>
    if n = parent then .node n b (below.append number branch) beside
    else .node n b (below.grow parent number branch) (beside.grow parent number branch)

theorem length_numbers (o : Outline σ ε) : o.numbers.length = o.size := by
  induction o with
  | nil => rfl
  | node n b below beside ihb ihs =>
    simp only [numbers, size, List.length_cons, List.length_append, ihb, ihs]

@[simp] theorem numbers_update (number : Nat) (f : Branch σ ε → Branch σ ε)
    (o : Outline σ ε) : (o.update number f).numbers = o.numbers := by
  induction o with
  | nil => rfl
  | node n b below beside ihb ihs =>
    by_cases h : n = number <;> simp [update, h, numbers, ihb, ihs]

theorem numbers_append (number : Nat) (branch : Branch σ ε) (o : Outline σ ε) :
    (o.append number branch).numbers = o.numbers ++ [number] := by
  induction o with
  | nil => rfl
  | node n b below beside _ ihs => simp [append, numbers, ihs]

end Outline
end Turnstile
