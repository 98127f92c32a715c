import Turnstile.Branch.Outline
import Turnstile.State
import Turnstile.Text.Inspect

/-!
Charts: the states of a machine, the transitions between them, and the hooks that
are called around every transition.

Transitions are kept by source and then by target, each in the order of first
mention.  Several transitions may lead from one state to another; they keep the
order in which they were declared.
-/

namespace Turnstile

variable {σ ε : Type}

/-- The transitions of a chart by source and target. -/
abbrev Table (σ ε : Type) := Ledger (Ledger (List (Transition σ ε)))

namespace Table

/-- Changes the transitions from one state to another, of which there are none at
first. -/
def alter (table : Table σ ε) (source target : String)
    (f : List (Transition σ ε) → List (Transition σ ε)) : Table σ ε :=
  Ledger.alter table source fun row =>
    (row.getD Ledger.empty).alter target fun ts => f (ts.getD [])

/-- Adds a transition as the last one between its states. -/
def add (table : Table σ ε) (t : Transition σ ε) : Table σ ε :=
  table.alter t.source t.target (· ++ [t])

def clear (table : Table σ ε) (source target : String) : Table σ ε :=
  table.alter source target fun _ => []

/-- The transitions in a row of the table, target by target. -/
def ofRow (row : Ledger (List (Transition σ ε))) : List (Transition σ ε) := row.values.flatten

/-- The transitions from one state, target by target. -/
def leaving (table : Table σ ε) (source : String) : List (Transition σ ε) :=
  match table.get? source with
  | some row => ofRow row
  | none => []

/-- All transitions, source by source. -/
def all (table : Table σ ε) : List (Transition σ ε) := table.values.flatMap ofRow

/-- The transitions from one state to another, in the order of their declaration. -/
def between (table : Table σ ε) (source target : String) : List (Transition σ ε) :=
  (((table.get? source).getD Ledger.empty).get? target).getD []

theorem mem_all_of_mem_leaving {table : Table σ ε} {source : String} {t : Transition σ ε}
    (h : t ∈ table.leaving source) : t ∈ table.all := by
  unfold leaving at h
  split at h
  · next row hrow =>
    have hvalue : row ∈ table.values :=
      List.mem_map.mpr ⟨(source, row), Ledger.mem_entries_of_get? hrow, rfl⟩
    exact List.mem_flatMap.mpr ⟨row, hvalue, h⟩
  · cases h

theorem between_alter (table : Table σ ε) (source target source' target' : String)
    (f : List (Transition σ ε) → List (Transition σ ε)) :
    (table.alter source target f).between source' target' =
      if source' = source ∧ target' = target then f (table.between source target)
      else table.between source' target' := by
  unfold between alter
  rw [Ledger.get?_alter]
  by_cases hs : source' = source
  · subst hs
    rw [if_pos rfl, Option.getD_some, Ledger.get?_alter]
    by_cases ht : target' = target
    · subst ht
      simp
    · simp [ht]
  · simp [hs]

theorem between_add (table : Table σ ε) (t : Transition σ ε) :
    (table.add t).between t.source t.target = table.between t.source t.target ++ [t] := by
  simp [add, between_alter]

theorem between_clear (table : Table σ ε) (source target : String) :
    (table.clear source target).between source target = [] := by
  simp [clear, between_alter]

end Table

/-- The definition of a machine. -/
structure Chart (σ ε : Type) where
  flags : Ledger Flags
  table : Table σ ε
  hooks : List (Hook σ ε)
  /-- Every state declared from now on is transient. -/
  allTransient : Bool

namespace Chart

def empty : Chart σ ε :=
  { flags := Ledger.empty, table := Ledger.empty, hooks := [], allTransient := false }

/-- The states in the order of first declaration. -/
def states (c : Chart σ ε) : List State :=
  c.flags.entries.map fun e => { name := e.1, flags := e.2 }

def state? (c : Chart σ ε) (name : String) : Option State :=
  (c.flags.get? name).map fun flags => { name, flags }

/-- All transitions, source by source and target by target. -/
def transitions (c : Chart σ ε) : List (Transition σ ε) := c.table.all

/-- The transitions from the state of that name, target by target. -/
def leaving (c : Chart σ ε) (name : String) : List (Transition σ ε) := c.table.leaving name

def initialStates (c : Chart σ ε) : List State := c.states.filter State.isInitial

def inspect (c : Chart σ ε) : String :=
  Text.Inspect.openRecord "Template"
    [("states", Text.Inspect.list (c.states.map State.inspect)),
      ("transitions", Text.Inspect.list (c.transitions.map Transition.inspect)),
      ("hooks", Text.Inspect.list (c.hooks.map Hook.inspect)),
      ("all_states_transient", Text.Inspect.bool c.allTransient)]

@[simp] theorem name_of_state? {c : Chart σ ε} {name : String} {s : State}
    (h : c.state? name = some s) : s.name = name := by
  simp only [state?, Option.map_eq_some_iff] at h
  obtain ⟨flags, -, rfl⟩ := h
  rfl

end Chart
end Turnstile
