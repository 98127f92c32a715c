import Turnstile.Time.Date

/-!
Instants of universal time, to the nanosecond.

An inserted leap second has no number of its own: it is the second before it,
prolonged, so that its nanoseconds run on from 10⁹.
-/

namespace Turnstile

/-- An instant of universal time: a day, a second of that day, and nanoseconds
into that second. -/
structure Instant where
  date : Date
  second : Nat
  nanosecond : Nat
  deriving DecidableEq, Repr

/-- A length of time, with less than 10⁹ nanoseconds. -/
structure Span where
  seconds : Nat
  nanoseconds : Nat
  deriving DecidableEq, Repr

namespace Instant

def secondsPerDay : Nat := 86400

def nanosPerSecond : Nat := 1000000000

/-- The instant is a time of an existing day, and only the last second of a minute
is prolonged. -/
def Valid (i : Instant) : Prop :=
  i.date.Valid ∧ i.second < secondsPerDay ∧ i.nanosecond < 2 * nanosPerSecond ∧
    (nanosPerSecond ≤ i.nanosecond → i.second % 60 = 59)

def isLeap (i : Instant) : Bool := nanosPerSecond ≤ i.nanosecond

/-- The instant of universal time at which clocks that are `offset` seconds ahead
show the day and the time of `shown`.  The offset is less than a day either way. -/
def ofLocal? (shown : Instant) (offset : Int) : Option Instant :=
  let second := (shown.second : Int) - offset
  if second < 0 then
    shown.date.previous?.map fun date =>
      { shown with date, second := (second + secondsPerDay).toNat }
  else if (secondsPerDay : Int) ≤ second then
    shown.date.next?.map fun date =>
      { shown with date, second := (second - secondsPerDay).toNat }
  else some { shown with second := second.toNat }

/-- The leap second that lies between two times of day, where one of the two lies
in it: counted forward when the later time of day belongs to `finish`. -/
def leapBetween (start finish : Instant) : Int :=
  if start.second < finish.second ∧ start.isLeap then 1
  else if finish.second < start.second ∧ finish.isLeap then -1
  else 0

/-- The nanoseconds from one instant to another, negative when the second is the
earlier one. -/
def nanosBetween (start finish : Instant) : Int :=
  let days := finish.date.number - start.date.number
  let seconds := days * secondsPerDay + ((finish.second : Int) - start.second)
    + leapBetween start finish
  seconds * nanosPerSecond + ((finish.nanosecond : Int) - start.nanosecond)

/-- The time from one instant to another, if the other is not the earlier one. -/
def until? (start finish : Instant) : Option Span :=
  let nanos := nanosBetween start finish
  if nanos < 0 then none
  else some
    { seconds := nanos.toNat / nanosPerSecond, nanoseconds := nanos.toNat % nanosPerSecond }

@[simp] theorem nanosBetween_self (i : Instant) : nanosBetween i i = 0 := by
  simp [nanosBetween, leapBetween]

@[simp] theorem ofLocal?_zero {shown : Instant} (h : shown.second < secondsPerDay) :
    ofLocal? shown 0 = some shown := by
  have h₁ : ¬ (shown.second : Int) < 0 := by omega
  have h₂ : ¬ (secondsPerDay : Int) ≤ shown.second := by omega
  simp [ofLocal?, h₁, h₂]

end Instant
end Turnstile
