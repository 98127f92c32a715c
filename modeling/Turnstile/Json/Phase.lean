import Turnstile.Json.Basic
import Turnstile.Transition

/-!
The JSON form of phases.
-/

namespace Turnstile
namespace Phase

def ofName? : String → Option Phase
  | "before" => some .before
  | "after" => some .after
  | _ => none

def toJson (p : Phase) : Json := .ofString p.name

/-- Reads a phase: its name, or an object whose one member has that name and holds
null. -/
def ofJson? : Json → Option Phase
  | .string ps => (Json.text? ps).bind ofName?
  | .object [(key, .null)] => (Json.text? key).bind ofName?
  | _ => none

@[simp] theorem ofJson?_toJson (p : Phase) : ofJson? p.toJson = some p := by
  cases p <;> simp [toJson, ofJson?, Json.ofString, name, ofName?]

end Phase
end Turnstile
