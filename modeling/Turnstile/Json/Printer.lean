import Turnstile.Json.Basic

/-!
Writing a JSON value as compact text: no blanks, members in order, and in strings
an escape only where the format demands one.
-/

namespace Turnstile
namespace Json

def hexDigit (n : Nat) : Char := Nat.digitChar (n % 16)

def unitEscape (unit : Nat) : List Char :=
  ['\\', 'u', hexDigit (unit / 0x1000), hexDigit (unit / 0x100), hexDigit (unit / 0x10),
    hexDigit unit]

/-- A character as it stands between the quotes of a string.  The quote, the
backslash and the control characters are escaped, by a letter where there is one
for them, and every other character stands for itself. -/
def escapeChar (c : Char) : List Char :=
  if c = '"' then ['\\', '"']
  else if c = '\\' then ['\\', '\\']
  else if c = '\x08' then ['\\', 'b']
  else if c = '\x0c' then ['\\', 'f']
  else if c = '\n' then ['\\', 'n']
  else if c = '\r' then ['\\', 'r']
  else if c = '\t' then ['\\', 't']
  else if c.toNat < 0x20 then unitEscape c.toNat
  else [c]

def Piece.render : Piece → List Char
  | .char c => escapeChar c
  | .high bits => unitEscape (0xD800 + bits)
  | .low bits => unitEscape (0xDC00 + bits)

/-- A string between its quotes. -/
def renderPieces (ps : List Piece) : List Char := '"' :: (ps.flatMap Piece.render ++ ['"'])

mutual

def render : Json → List Char
  | .null => ['n', 'u', 'l', 'l']
  | .bool true => ['t', 'r', 'u', 'e']
  | .bool false => ['f', 'a', 'l', 's', 'e']
  | .number lexeme => lexeme
  | .string ps => renderPieces ps
  | .array [] => ['[', ']']
  | .array (item :: items) => '[' :: (render item ++ renderItems items ++ [']'])
  | .object [] => ['{', '}']
  | .object ((key, v) :: members) =>
    '{' :: (renderPieces key ++ ':' :: (render v ++ renderMembers members ++ ['}']))

/-- The items of an array after its first, each behind a comma. -/
def renderItems : List Json → List Char
  | [] => []
  | item :: items => ',' :: (render item ++ renderItems items)

/-- The members of an object after its first, each behind a comma. -/
def renderMembers : List (List Piece × Json) → List Char
  | [] => []
  | (key, v) :: members => ',' :: (renderPieces key ++ ':' :: (render v ++ renderMembers members))

end

def toText (v : Json) : String := String.ofList v.render

end Json
end Turnstile
