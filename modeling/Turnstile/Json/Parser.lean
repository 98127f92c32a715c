import Turnstile.Json.Token

/-!
Reading a JSON value from the tokens of a text.

The reader carries the arrays and objects that are still open as a stack of
frames, innermost first, so that the depth of nesting costs no more than its
tokens.  It alternates between two positions: `value?` stands where a value must
begin, and `after?` stands right behind a value.
-/

namespace Turnstile
namespace Json

/-- An array or object whose end has not been read: what it holds so far, last
first, and for an object the key of the member being read. -/
inductive Frame where
  | array (items : List Json)
  | object (members : List (List Piece × Json)) (key : List Piece)

mutual

/-- Reads a value at the front of the tokens, inside the given frames. -/
def value? (frames : List Frame) : List Token → Option Json
  | .null :: rest => after? .null frames rest
  | .bool b :: rest => after? (.bool b) frames rest
  | .number lexeme :: rest => after? (.number lexeme) frames rest
  | .string ps :: rest => after? (.string ps) frames rest
  | .openBracket :: .closeBracket :: rest => after? (.array []) frames rest
  | .openBracket :: rest => value? (.array [] :: frames) rest
  | .openBrace :: .closeBrace :: rest => after? (.object []) frames rest
  | .openBrace :: .string key :: .colon :: rest => value? (.object [] key :: frames) rest
  | _ => none

/-- Goes on behind the value `v`, which stands inside the given frames. -/
def after? (v : Json) : List Frame → List Token → Option Json
  | [], [] => some v
  | .array items :: outer, .comma :: rest => value? (.array (v :: items) :: outer) rest
  | .array items :: outer, .closeBracket :: rest =>
    after? (.array (v :: items).reverse) outer rest
  | .object members last :: outer, .comma :: .string key :: .colon :: rest =>
    value? (.object ((last, v) :: members) key :: outer) rest
  | .object members last :: outer, .closeBrace :: rest =>
    after? (.object ((last, v) :: members).reverse) outer rest
  | _, _ => none

end

/-- The value that a text spells.  The text is refused unless it is one value with
blanks around it. -/
def parse? (text : String) : Option Json := (Token.tokens? text.toList).bind (value? [])

end Json
end Turnstile
