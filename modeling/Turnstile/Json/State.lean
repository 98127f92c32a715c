import Turnstile.State
import Turnstile.Json.Fields
import Turnstile.Json.Parser

/-!
The JSON forms of states and of their flags.
-/

namespace Turnstile

namespace Flags

/-- All three flags, each with its truth value. -/
def toJson (fs : Flags) : Json :=
  Json.ofMembers
    [("initial", .bool fs.initial), ("final", .bool fs.final), ("transient", .bool fs.transient)]

/-- Reads flags.  A flag that is not mentioned is not raised. -/
def ofJson? (v : Json) : Option Flags := do
  let fields ← v.fields? ["initial", "final", "transient"]
  let initial ← Json.optional? fields "initial" Json.bool? false
  let final ← Json.optional? fields "final" Json.bool? false
  let transient ← Json.optional? fields "transient" Json.bool? false
  return { initial, final, transient }

/-- The flags that a text spells. -/
def ofText? (text : String) : Option Flags := (Json.parse? text).bind ofJson?

end Flags

namespace State

def toJson (s : State) : Json :=
  Json.ofMembers [("name", .ofString s.name), ("options", s.flags.toJson)]

/-- Reads a state, whose name and flags must both be there. -/
def ofJson? (v : Json) : Option State := do
  let fields ← v.fields? ["name", "options"]
  let name ← Json.required? fields "name" Json.string?
  let flags ← Json.required? fields "options" Flags.ofJson?
  return { name, flags }

/-- The state that a text spells. -/
def ofText? (text : String) : Option State := (Json.parse? text).bind ofJson?

end State
end Turnstile
