import Turnstile.Json.Basic

/-!
Records in JSON.

A record with a fixed row of field names is spelt as an object whose members may
come in any order and among other members, or as an array of the fields' values in
their own order, cut short where the last fields are left out.  `fields?` reads
both spellings and leaves it to the reader of each record which fields it can do
without.
-/

namespace Turnstile
namespace Json

/-- The members of an object under the texts of their keys. -/
def keyed? (members : List (List Piece × Json)) : Option (List (String × Json)) :=
  members.mapM fun m => (text? m.1).map fun key => (key, m.2)

/-- The fields of a record whose field names are `names`, each with its value.
Every key must spell a text, no field may stand twice, and an array may not have
more items than there are fields. -/
def fields? (names : List String) : Json → Option (List (String × Json))
  | .object members => do
    let known := (← keyed? members).filter fun m => names.contains m.1
    if (known.map Prod.fst).Nodup then some known else none
  | .array items => if items.length ≤ names.length then some (names.zip items) else none
  | _ => none

def required? {α : Type} (fields : List (String × Json)) (name : String)
    (read : Json → Option α) : Option α :=
  (fields.lookup name).bind read

def optional? {α : Type} (fields : List (String × Json)) (name : String)
    (read : Json → Option α) (absent : α) : Option α :=
  match fields.lookup name with
  | some v => read v
  | none => some absent

end Json
end Turnstile
