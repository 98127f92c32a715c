import Turnstile.Text.Decimal

/-!
JSON values as their texts spell them.

A string of a JSON text is more than a list of characters: an escape may name one
half of a surrogate pair, and such a string is well formed although it spells no
text.  It is therefore kept as a list of pieces, and `text?` says whether the
pieces spell a text.  A number is kept as its lexeme, since the only numbers that
the library reads are natural numbers and every other number is only skipped.
-/

namespace Turnstile
namespace Json

/-- One element of a JSON string: a character, or half of a surrogate pair. -/
inductive Piece where
  | char (c : Char)
  | high (bits : Nat)
  | low (bits : Nat)
  deriving DecidableEq, Repr

namespace Piece

def ofUnit (unit : Nat) : Piece :=
  if 0xD800 ≤ unit ∧ unit < 0xDC00 then .high (unit - 0xD800)
  else if 0xDC00 ≤ unit ∧ unit < 0xE000 then .low (unit - 0xDC00)
  else .char (Char.ofNat unit)

/-- The character whose surrogate pair has the given ten bits on either side. -/
def pair (high low : Nat) : Char := Char.ofNat (0x10000 + high * 0x400 + low)

end Piece

def pieces (text : String) : List Piece := text.toList.map .char

/-- The characters that the pieces spell after the characters of `read`, which
come last first.  A high half must stand before a low half, and a low half after a
high one. -/
def spellOnto (read : List Char) : List Piece → Option (List Char)
  | [] => some read.reverse
  | .char c :: rest => spellOnto (c :: read) rest
  | .high h :: .low l :: rest => spellOnto (Piece.pair h l :: read) rest
  | .high _ :: _ => none
  | .low _ :: _ => none

def text? (ps : List Piece) : Option String := (spellOnto [] ps).map String.ofList

theorem spellOnto_map_char (read cs : List Char) :
    spellOnto read (cs.map .char) = some (read.reverse ++ cs) := by
  induction cs generalizing read with
  | nil => simp [spellOnto]
  | cons c rest ih => simp [spellOnto, ih]

/-- Every text is spelt by its own characters. -/
@[simp] theorem text?_pieces (text : String) : text? (pieces text) = some text := by
  simp [text?, pieces, spellOnto_map_char]

end Json

/-- A JSON value.  The members of an object are listed as written, repetitions
included. -/
inductive Json where
  | null
  | bool (value : Bool)
  | number (lexeme : List Char)
  | string (pieces : List Json.Piece)
  | array (items : List Json)
  | object (members : List (List Json.Piece × Json))

namespace Json

def ofString (text : String) : Json := .string (pieces text)

def ofNat (n : Nat) : Json := .number (Text.digits n)

def ofMembers (members : List (String × Json)) : Json :=
  .object (members.map fun m => (pieces m.1, m.2))

def string? : Json → Option String
  | .string ps => text? ps
  | _ => none

def bool? : Json → Option Bool
  | .bool b => some b
  | _ => none

def array? : Json → Option (List Json)
  | .array items => some items
  | _ => none

/-- The value of a number that is written as a plain row of digits. -/
def natural? : Json → Option Nat
  | .number lexeme => if lexeme.all Char.isDigit then some (Text.digitsValue lexeme) else none
  | _ => none

@[simp] theorem string?_ofString (text : String) : (ofString text).string? = some text :=
  text?_pieces text

end Json
end Turnstile
