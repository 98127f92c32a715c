/-!
Tables that remember the order in which their keys were first written.

Everything a chart reports, draws or tries is listed in the order of first
mention, so a table is its list of entries.  Writing to a known key changes the
entry in place, and writing to a new key appends one.  The two lemmas that the
rest of the library relies on are `get?_alter`, which says what a key holds after
a write, and `keys_alter`, which says that a write only ever appends to the keys.
-/

namespace Turnstile

/-- A table from names to values, listed in the order in which the names were
first written. -/
structure Ledger (α : Type) where
  entries : List (String × α)

namespace Ledger

variable {α : Type}

def empty : Ledger α := { entries := [] }

/-- The names in order of first writing. -/
def keys (l : Ledger α) : List String := l.entries.map Prod.fst

def values (l : Ledger α) : List α := l.entries.map Prod.snd

def get? (l : Ledger α) (name : String) : Option α := l.entries.lookup name

/-- Changes the entry of `name` by `f`, or appends one when there is none. -/
def alterIn (name : String) (f : Option α → α) : List (String × α) → List (String × α)
  | [] => [(name, f none)]
  | (key, value) :: rest =>
    if key = name then (key, f (some value)) :: rest
    else (key, value) :: alterIn name f rest

/-- Writes `f` of what `name` holds under `name`, in place when the name is
known and at the end when it is new. -/
def alter (l : Ledger α) (name : String) (f : Option α → α) : Ledger α :=
  { entries := alterIn name f l.entries }

def insert (l : Ledger α) (name : String) (value : α) : Ledger α :=
  l.alter name fun _ => value

@[simp] theorem keys_empty : (empty : Ledger α).keys = [] := rfl

@[simp] theorem values_empty : (empty : Ledger α).values = [] := rfl

@[simp] theorem get?_empty (name : String) : (empty : Ledger α).get? name = none := rfl

theorem lookup_alterIn_self (name : String) (f : Option α → α) (es : List (String × α)) :
    (alterIn name f es).lookup name = some (f (es.lookup name)) := by
  induction es with
  | nil => simp [alterIn]
  | cons e rest ih =>
    obtain ⟨key, value⟩ := e
    by_cases h : key = name
    · simp [alterIn, h]
    · have h' : (name == key) = false := by simp [Ne.symm h]
      simp [alterIn, h, List.lookup_cons, h', ih]

theorem lookup_alterIn_of_ne {name other : String} (h : other ≠ name) (f : Option α → α)
    (es : List (String × α)) : (alterIn name f es).lookup other = es.lookup other := by
  induction es with
  | nil =>
    have h' : (other == name) = false := by simp [h]
    simp [alterIn, List.lookup_cons, h']
  | cons e rest ih =>
    obtain ⟨key, value⟩ := e
    by_cases hk : key = name
    · subst hk
      have h' : (other == key) = false := by simp [h]
      simp [alterIn, List.lookup_cons, h']
    · simp [alterIn, hk, List.lookup_cons, ih]

/-- After a write the written name holds `f` of what it held, and every other
name holds what it held. -/
theorem get?_alter (l : Ledger α) (name other : String) (f : Option α → α) :
    (l.alter name f).get? other =
      if other = name then some (f (l.get? name)) else l.get? other := by
  by_cases h : other = name
  · subst h
    simp [alter, get?, lookup_alterIn_self]
  · simp [alter, get?, h, lookup_alterIn_of_ne h]

theorem mem_entries_of_get? {l : Ledger α} {name : String} {value : α}
    (h : l.get? name = some value) : (name, value) ∈ l.entries := by
  obtain ⟨before, after, hl, -⟩ := List.lookup_eq_some_iff.mp h
  rw [hl]
  exact List.mem_append_right _ List.mem_cons_self

theorem map_fst_alterIn (name : String) (f : Option α → α) (es : List (String × α)) :
    (alterIn name f es).map Prod.fst =
      if name ∈ es.map Prod.fst then es.map Prod.fst else es.map Prod.fst ++ [name] := by
  induction es with
  | nil => simp [alterIn]
  | cons e rest ih =>
    obtain ⟨key, value⟩ := e
    by_cases h : key = name
    · simp [alterIn, h]
    · simp only [alterIn, h, if_false, List.map_cons, ih, List.mem_cons, Ne.symm h, false_or]
      split <;> simp

/-- A write keeps the names in their order and appends a new name at the end. -/
theorem keys_alter (l : Ledger α) (name : String) (f : Option α → α) :
    (l.alter name f).keys = if name ∈ l.keys then l.keys else l.keys ++ [name] :=
  map_fst_alterIn name f l.entries

theorem nodup_keys_alter {l : Ledger α} (h : l.keys.Nodup) (name : String)
    (f : Option α → α) : (l.alter name f).keys.Nodup := by
  rw [keys_alter]
  split
  · exact h
  · next hn =>
    rw [List.nodup_append]
    refine ⟨h, by simp, ?_⟩
    intro a ha b hb hab
    simp only [List.mem_singleton] at hb
    exact hn (hb ▸ hab ▸ ha)

end Ledger
end Turnstile
