import Turnstile.Time.Instant

/-!
The passages that a machine has made.

A history lists passages in the order in which they were made and may be bounded
to the latest of them.  It is held with the latest passage first, so that recording
one takes no longer as the history grows; `passages` is the history as it is read,
oldest first, and the lemmas say what each operation does to it.

The bound is applied when a passage is recorded.  A history that was built with
more passages than its bound therefore keeps them until the next one is recorded.
-/

namespace Turnstile

/-- One performed transition: where it led from and to, and when. -/
structure Passage where
  source : String
  target : String
  time : Instant
  deriving DecidableEq, Repr

/-- The latest passages first, and how many of them to keep. -/
structure History where
  latest : List Passage
  limit : Option Nat
  deriving DecidableEq, Repr

namespace History

def empty : History := { latest := [], limit := none }

def bounded (limit : Nat) : History := { latest := [], limit := some limit }

/-- The history with the given passages, oldest first, whether or not they exceed
the bound. -/
def ofPassages (passages : List Passage) (limit : Option Nat) : History :=
  { latest := passages.reverse, limit }

/-- The passages, oldest first. -/
def passages (h : History) : List Passage := h.latest.reverse

def size (h : History) : Nat := h.latest.length

def isEmpty (h : History) : Bool := h.latest.isEmpty

/-- No passages, under the same bound. -/
def cleared (h : History) : History := { h with latest := [] }

/-- Only as many of the listed things as the limit allows.  A list within the limit is
not copied. -/
def cut {α : Type} : Option Nat → List α → List α
  | none, xs => xs
  | some n, xs => if xs.length ≤ n then xs else xs.take n

/-- Adds a passage as the latest one and drops the oldest ones beyond the bound. -/
def record (h : History) (p : Passage) : History :=
  { h with latest := cut h.limit (p :: h.latest) }

/-- The same passages under a new bound, the oldest ones beyond it dropped. -/
def restrict (h : History) (limit : Nat) : History :=
  { latest := h.latest.take limit, limit := some limit }

/-- The names of the states passed through: where the oldest passage started, and
then where each one led. -/
def path (h : History) : List String :=
  match h.passages with
  | [] => []
  | p :: rest => p.source :: p.target :: rest.map Passage.target

/-- The time from the oldest passage to the latest one, if the clock did not run
backwards between them. -/
def duration? (h : History) : Option Span :=
  match h.passages.head?, h.latest.head? with
  | some oldest, some newest => oldest.time.until? newest.time
  | _, _ => none

@[simp] theorem cut_some {α : Type} (n : Nat) (xs : List α) : cut (some n) xs = xs.take n := by
  rw [cut]
  split
  · next hn => exact (List.take_of_length_le hn).symm
  · rfl

@[simp] theorem passages_empty : empty.passages = [] := rfl

@[simp] theorem passages_bounded (n : Nat) : (bounded n).passages = [] := rfl

@[simp] theorem passages_cleared (h : History) : h.cleared.passages = [] := rfl

@[simp] theorem limit_cleared (h : History) : h.cleared.limit = h.limit := rfl

@[simp] theorem limit_record (h : History) (p : Passage) : (h.record p).limit = h.limit := rfl

@[simp] theorem passages_ofPassages (ps : List Passage) (limit : Option Nat) :
    (ofPassages ps limit).passages = ps := by
  simp [passages, ofPassages]

@[simp] theorem ofPassages_passages (h : History) : ofPassages h.passages h.limit = h := by
  simp [passages, ofPassages]

theorem length_passages (h : History) : h.passages.length = h.size := by
  simp [passages, size]

theorem passages_record_of_unbounded {h : History} (hl : h.limit = none) (p : Passage) :
    (h.record p).passages = h.passages ++ [p] := by
  simp [passages, record, cut, hl]

/-- Under a bound the passages end with the new one, and those that exceed the
bound are dropped at the front. -/
theorem passages_record_of_bounded {h : History} {n : Nat} (hl : h.limit = some n)
    (p : Passage) :
    (h.record p).passages = (h.passages ++ [p]).drop (h.size + 1 - n) := by
  have hr : (p :: h.latest).reverse = h.latest.reverse ++ [p] := List.reverse_cons
  simp only [passages, record, cut_some, hl, List.reverse_take, hr]
  rfl

theorem size_restrict_le (h : History) (n : Nat) : (h.restrict n).size ≤ n := by
  simp only [size, restrict, List.length_take]
  omega

theorem size_record_le {h : History} {n : Nat} (hl : h.limit = some n) (p : Passage) :
    (h.record p).size ≤ n := by
  simp only [size, record, cut_some, hl, List.length_take]
  omega

end History
end Turnstile
