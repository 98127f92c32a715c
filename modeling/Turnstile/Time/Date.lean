/-!
Days of the Gregorian calendar, extended to the years before its introduction and
bounded on either side.
-/

namespace Turnstile

structure Date where
  year : Int
  month : Nat
  day : Nat
  deriving DecidableEq, Repr

namespace Date

def isLeapYear (year : Int) : Bool :=
  year % 4 == 0 && (year % 100 != 0 || year % 400 == 0)

def monthLength (year : Int) : Nat → Nat
  | 2 => if isLeapYear year then 29 else 28
  | 4 | 6 | 9 | 11 => 30
  | _ => 31

def firstYear : Int := -262143

def lastYear : Int := 262142

/-- The day exists: its year is in the calendar, its month in the year and its day
in the month. -/
def Valid (d : Date) : Prop :=
  (firstYear ≤ d.year ∧ d.year ≤ lastYear) ∧ (1 ≤ d.month ∧ d.month ≤ 12) ∧
    (1 ≤ d.day ∧ d.day ≤ monthLength d.year d.month)

instance (d : Date) : Decidable d.Valid :=
  inferInstanceAs (Decidable (_ ∧ _ ∧ _))

/-- The day of that year, month and day of the month, if it exists. -/
def of? (year : Int) (month day : Nat) : Option Date :=
  let d : Date := { year, month, day }
  if d.Valid then some d else none

/-- The day after, unless the calendar ends. -/
def next? (d : Date) : Option Date :=
  if d.day < monthLength d.year d.month then some { d with day := d.day + 1 }
  else if d.month < 12 then some { d with month := d.month + 1, day := 1 }
  else of? (d.year + 1) 1 1

/-- The day before, unless the calendar begins. -/
def previous? (d : Date) : Option Date :=
  if 1 < d.day then some { d with day := d.day - 1 }
  else if 1 < d.month then
    some { d with month := d.month - 1, day := monthLength d.year (d.month - 1) }
  else of? (d.year - 1) 12 31

/-- The number of days in the years from year 1 up to the given one, which is left
out.  Before year 1 the number is negative. -/
def daysBeforeYear (year : Int) : Int :=
  let past := year - 1
  365 * past + past / 4 - past / 100 + past / 400

/-- The number of days in the months of a year before the given one. -/
def daysBeforeMonth (year : Int) (month : Nat) : Nat :=
  (List.range (month - 1)).foldl (fun days m => days + monthLength year (m + 1)) 0

/-- The place of the day in the row of all days, so that days apart are numbers
apart. -/
def number (d : Date) : Int :=
  daysBeforeYear d.year + daysBeforeMonth d.year d.month + d.day

theorem monthLength_le (year : Int) (month : Nat) : monthLength year month ≤ 31 := by
  unfold monthLength
  split <;> (try split) <;> decide

theorem of?_of_valid {d : Date} (h : d.Valid) : of? d.year d.month d.day = some d := by
  simp [of?, h]

theorem valid_of_of? {year : Int} {month day : Nat} {d : Date}
    (h : of? year month day = some d) : d.Valid := by
  simp only [of?] at h
  split at h
  · next hv => exact Option.some.inj h ▸ hv
  · simp at h

end Date
end Turnstile
