import Turnstile.Text.Blank
import Turnstile.Text.Decimal
import Turnstile.Time.Instant

/-!
Time stamps: the written form of instants.

A stamp is written as a day, a `T`, a time of day and a `Z`, with as many digits
after the second as the instant needs, in groups of three.  It is read more freely
than it is written: the time zone may be any offset of less than a day, numbers may
be short, and white space may stand between the parts.
-/

namespace Turnstile
namespace Instant

open Text

/-! ## Writing -/

/-- The four digits of a year of four digits, and otherwise a sign and at least
four digits. -/
def yearText (year : Int) : List Char :=
  if 0 ≤ year ∧ year ≤ 9999 then padded 4 year.toNat
  else (if year < 0 then '-' else '+') :: padded 4 year.natAbs

def dateText (d : Date) : List Char :=
  yearText d.year ++ '-' :: (padded 2 d.month ++ '-' :: padded 2 d.day)

/-- The second within its minute as clocks show it: a leap second is the sixtieth. -/
def shownSecond (i : Instant) : Nat := i.second % 60 + if i.isLeap then 1 else 0

def clockText (i : Instant) : List Char :=
  padded 2 (i.second / 3600) ++ ':' :: (padded 2 (i.second / 60 % 60) ++
    ':' :: padded 2 i.shownSecond)

/-- The fewest of zero, three, six or nine digits that lose nothing, behind a
point unless there are none. -/
def fractionText (nanos : Nat) : List Char :=
  if nanos = 0 then []
  else if nanos % 1000000 = 0 then '.' :: padded 3 (nanos / 1000000)
  else if nanos % 1000 = 0 then '.' :: padded 6 (nanos / 1000)
  else '.' :: padded 9 nanos

def stampChars (i : Instant) : List Char :=
  dateText i.date ++ 'T' :: (i.clockText ++ fractionText (i.nanosecond % nanosPerSecond) ++ ['Z'])

def stamp (i : Instant) : String := String.ofList i.stampChars

/-! ## Reading -/

/-- A number of at least one digit and at most `most` digits, and what follows it. -/
def numeral? (most : Nat) (cs : List Char) : Option (Nat × List Char) :=
  match (cs.take most).takeWhile Char.isDigit with
  | [] => none
  | d :: ds => some (digitsValue (d :: ds), cs.drop (ds.length + 1))

/-- A year: four digits at most, or any number of digits behind a sign. -/
def year? (cs : List Char) : Option (Int × List Char) :=
  match trimBlanks cs with
  | '-' :: rest => (numeral? rest.length rest).map fun p => (-(p.1 : Int), p.2)
  | '+' :: rest => (numeral? rest.length rest).map fun p => ((p.1 : Int), p.2)
  | rest => (numeral? 4 rest).map fun p => ((p.1 : Int), p.2)

/-- A number of one or two digits, behind any white space. -/
def pair? (cs : List Char) : Option (Nat × List Char) := numeral? 2 (trimBlanks cs)

/-- What follows the given character, behind any white space. -/
def mark? (c : Char) (cs : List Char) : Option (List Char) :=
  match trimBlanks cs with
  | d :: rest => if d = c then some rest else none
  | [] => none

/-- What follows the one character between the day and the time of day. -/
def separator? : List Char → Option (List Char)
  | 'T' :: rest | 't' :: rest | ' ' :: rest => some rest
  | _ => none

/-- The nanoseconds behind a point, which are its first nine digits, filled up with
zeros; none when there is no point. -/
def fraction? : List Char → Option (Nat × List Char)
  | '.' :: rest =>
    match rest.takeWhile Char.isDigit with
    | [] => none
    | d :: ds =>
      let nine := ((d :: ds).take 9).rightpad 9 '0'
      some (digitsValue nine, rest.dropWhile Char.isDigit)
  | cs => some (0, cs)

/-- A day and the time of day behind it.  The sixtieth second is the second before
it prolonged. -/
def shown? (cs : List Char) : Option (Instant × List Char) := do
  let (year, cs) ← year? cs
  let cs ← mark? '-' cs
  let (month, cs) ← pair? cs
  let cs ← mark? '-' cs
  let (day, cs) ← pair? cs
  let cs ← separator? cs
  let (hour, cs) ← pair? cs
  let cs ← mark? ':' cs
  let (minute, cs) ← pair? cs
  let cs ← mark? ':' cs
  let (second, cs) ← pair? cs
  let (nanos, cs) ← fraction? cs
  let date ← Date.of? year month day
  if 24 ≤ hour ∨ 60 ≤ minute ∨ 61 ≤ second then none
  else
    let minutes := 60 * hour + minute
    if second = 60 then
      some ({ date, second := 60 * minutes + 59, nanosecond := nanosPerSecond + nanos }, cs)
    else some ({ date, second := 60 * minutes + second, nanosecond := nanos }, cs)

def twoDigits? : List Char → Option (Nat × List Char)
  | a :: b :: rest =>
    if a.isDigit && b.isDigit then some (digitsValue [a, b], rest) else none
  | _ => none

/-- The number of seconds in an offset behind its sign: two digits of hours and two
of minutes, with colons or white space between them. -/
def offsetSize? (cs : List Char) : Option (Nat × List Char) := do
  let (hours, cs) ← twoDigits? cs
  let (minutes, cs) ← twoDigits? (cs.dropWhile fun c => c == ':' || isBlank c)
  if 24 ≤ hours ∨ 60 ≤ minutes then none else some (3600 * hours + 60 * minutes, cs)

/-- The three letters that name universal time, in either case. -/
def isUniversal (a b c : Char) : Bool := [a, b, c].map Char.toUpper == ['U', 'T', 'C']

/-- A signed offset from universal time.  The sign may be a plus, a hyphen or a
minus. -/
def signedOffset? : List Char → Option (Int × List Char)
  | '+' :: rest => (offsetSize? rest).map fun p => ((p.1 : Int), p.2)
  | '-' :: rest | '\u2212' :: rest => (offsetSize? rest).map fun p => (-(p.1 : Int), p.2)
  | _ => none

def zone? : List Char → Option (Int × List Char)
  | 'Z' :: rest | 'z' :: rest => some (0, rest)
  | a :: b :: c :: rest =>
    if isUniversal a b c then some (0, rest) else signedOffset? (a :: b :: c :: rest)
  | _ => none

/-- The instant that a stamp spells. -/
def ofStampChars? (cs : List Char) : Option Instant := do
  let (shown, cs) ← shown? cs
  let (offset, cs) ← zone? (trimBlanks cs)
  if (trimBlanks cs).isEmpty then shown.ofLocal? offset else none

def ofStamp? (text : String) : Option Instant := ofStampChars? text.toList

end Instant
end Turnstile
