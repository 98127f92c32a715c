/-!
The one-line layout in which values are shown for inspection.

A record is its name and its fields in braces, a wrapped value stands in
parentheses after the name of its wrapper, a list stands in square brackets, and
a string stands in double quotes with its own quotes, backslashes and control
characters escaped.
-/

namespace Turnstile
namespace Text
namespace Inspect

/-- A character as it appears between the quotes of a shown string.  The single
quote needs no escape there. -/
def quotedChar (c : Char) : String :=
  if c = '"' then "\\\""
  else if c = '\\' then "\\\\"
  else if c = '\n' then "\\n"
  else if c = '\r' then "\\r"
  else if c = '\t' then "\\t"
  else if c.toNat = 0 then "\\0"
  else if c.toNat < 0x20 || c.toNat = 0x7F then
    "\\u\x7b" ++ String.ofList (Nat.toDigits 16 c.toNat) ++ "\x7d"
  else String.singleton c

def quoted (text : String) : String :=
  "\"" ++ String.join (text.toList.map quotedChar) ++ "\""

def bool (b : Bool) : String := if b then "true" else "false"

def wrapped (wrapper inner : String) : String := wrapper ++ "(" ++ inner ++ ")"

def option : Option String → String
  | none => "None"
  | some inner => wrapped "Some" inner

def list (items : List String) : String := "[" ++ ", ".intercalate items ++ "]"

def field (f : String × String) : String := f.1 ++ ": " ++ f.2

def record (name : String) (fields : List (String × String)) : String :=
  name ++ " \x7b " ++ ", ".intercalate (fields.map field) ++ " \x7d"

/-- A record that has more fields than it shows. -/
def openRecord (name : String) (fields : List (String × String)) : String :=
  name ++ " \x7b " ++ ", ".intercalate (fields.map field ++ [".."]) ++ " \x7d"

end Inspect
end Text
end Turnstile
