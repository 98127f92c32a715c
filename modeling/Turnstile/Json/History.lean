import Turnstile.History
import Turnstile.Json.Fields
import Turnstile.Json.Parser
import Turnstile.Time.Stamp

/-!
The JSON forms of passages and histories.
-/

namespace Turnstile

namespace Passage

def toJson (p : Passage) : Json :=
  Json.ofMembers
    [("from", .ofString p.source), ("to", .ofString p.target),
      ("timestamp", .ofString p.time.stamp)]

/-- Reads a passage, whose three fields must all be there. -/
def ofJson? (v : Json) : Option Passage := do
  let fields ← v.fields? ["from", "to", "timestamp"]
  let source ← Json.required? fields "from" Json.string?
  let target ← Json.required? fields "to" Json.string?
  let stamp ← Json.required? fields "timestamp" Json.string?
  let time ← Instant.ofStamp? stamp
  return { source, target, time }

end Passage

namespace History

def limitToJson : Option Nat → Json
  | none => .null
  | some n => .ofNat n

/-- Reads a bound: null, or a natural number of at most 64 bits. -/
def limitOfJson? : Json → Option (Option Nat)
  | .null => some none
  | v => do
    let n ← v.natural?
    if n < UInt64.size then some (some n) else none

def toJson (h : History) : Json :=
  Json.ofMembers
    [("transitions", .array (h.passages.map Passage.toJson)), ("limit", limitToJson h.limit)]

/-- Reads a history.  The bound may be left out, and the passages are taken as
they are, even where they exceed it. -/
def ofJson? (v : Json) : Option History := do
  let fields ← v.fields? ["transitions", "limit"]
  let items ← Json.required? fields "transitions" Json.array?
  let passages ← items.mapM Passage.ofJson?
  let limit ← Json.optional? fields "limit" limitOfJson? none
  return ofPassages passages limit

/-- The history that a text spells. -/
def ofText? (text : String) : Option History := (Json.parse? text).bind ofJson?

end History
end Turnstile
