import Turnstile.Json.Fields
import Turnstile.Json.Parser
import Turnstile.Json.Printer
import Turnstile.Text.Utf8

/-!
The position of a machine as it is put away and found again.

A position is the name of a state and nothing more: what a machine remembers beside
it is of the day, and a chart may change while its positions are put away.  It has
a JSON form, an object with one field, and a binary form, the length of the name in
eight bytes before the name.
-/

namespace Turnstile

/-- Where a machine was: the name of its state. -/
structure Position where
  state : String
  deriving DecidableEq, Repr

inductive PositionError where
  | unwritable (reason : String)
  | unreadable (reason : String)
  deriving DecidableEq, Repr

def PositionError.message : PositionError → String
  | .unwritable reason => "Cannot encode saved state: " ++ reason
  | .unreadable reason => "Cannot decode saved state: " ++ reason

namespace Position

/-! ## The JSON form -/

def toJson (p : Position) : Json := Json.ofMembers [("current_state", .ofString p.state)]

def ofJson? (v : Json) : Option Position := do
  let fields ← v.fields? ["current_state"]
  let state ← Json.required? fields "current_state" Json.string?
  return { state }

def toText (p : Position) : String := p.toJson.toText

def ofText (text : String) : Except PositionError Position :=
  match (Json.parse? text).bind ofJson? with
  | some p => .ok p
  | none => .error (.unreadable "the text spells no position")

/-! ## The binary form -/

/-- The number of bytes that hold the length of the name. -/
def lengthWidth : Nat := 8

/-- The length of the name in UTF-8, and the name. -/
def toBytes (p : Position) : List UInt8 :=
  let name := Text.utf8 p.state
  Text.littleEndian lengthWidth name.length ++ name

/-- The position at the front of a row of bytes.  What follows it is not looked
at. -/
def ofBytes? (bytes : List UInt8) : Option Position :=
  let size := Text.ofLittleEndian (bytes.take lengthWidth)
  let rest := bytes.drop lengthWidth
  if lengthWidth ≤ bytes.length ∧ size ≤ rest.length then
    (Text.ofUtf8? (rest.take size)).map Position.mk
  else none

def ofBytes (bytes : List UInt8) : Except PositionError Position :=
  match ofBytes? bytes with
  | some p => .ok p
  | none => .error (.unreadable "the bytes begin with no position")

end Position
end Turnstile
