import Mathlib.Data.Set.Basic
import Turnstile.Json.History

/-!
# Histories within their bounds

A bounded history is meant to keep its latest passages only.  The bound is applied where a
passage is recorded: a history that is started, recorded into and cleared never has more
passages than its bound.  A text, however, may spell more passages than the bound that
stands next to them, and the reader takes both as they are.  What is read is the only kind
of history that can be beyond its bound, and the next passage brings it back within it.
-/

namespace Turnstile
namespace History

/-- The history has no more passages than its bound allows. -/
def Within (h : History) : Prop := ∀ n, h.limit = some n → h.size ≤ n

/-- The histories that come about by starting an empty one, with or without a bound, by
recording and clearing, and by reading one of the texts. -/
inductive Arises (texts : Set String) : History → Prop
  | empty : Arises texts empty
  | bounded (limit : Nat) : Arises texts (bounded limit)
  | record {h : History} (hh : Arises texts h) (p : Passage) : Arises texts (h.record p)
  | cleared {h : History} (hh : Arises texts h) : Arises texts h.cleared
  | read {text : String} {h : History} (htext : text ∈ texts) (hread : ofText? text = some h) :
    Arises texts h

theorem within_empty : empty.Within := by
  intro n hn
  simp [empty] at hn

theorem within_bounded (limit : Nat) : (bounded limit).Within := fun _ _ => Nat.zero_le _

theorem within_cleared (h : History) : h.cleared.Within := fun _ _ => Nat.zero_le _

/-- Recording brings even a history that was beyond its bound back within it. -/
theorem within_record (h : History) (p : Passage) : (h.record p).Within := by
  intro n hn
  rw [limit_record] at hn
  exact size_record_le hn p

/-- Only reading leads to a history beyond its bound, and only until something is done
with it. -/
theorem Arises.within_or_read {texts : Set String} {h : History} (hh : Arises texts h) :
    h.Within ∨ ∃ text ∈ texts, ofText? text = some h := by
  cases hh with
  | empty => exact .inl within_empty
  | bounded limit => exact .inl (within_bounded limit)
  | @record h _ p => exact .inl (within_record h p)
  | @cleared h _ => exact .inl (within_cleared h)
  | @read text _ htext hread => exact .inr ⟨text, htext, hread⟩

/-! ## What the reader takes -/

/-- The reader takes any passages together with any bound. -/
theorem ofJson?_ofMembers {items : List Json} {bound : Json} {passages : List Passage}
    {limit : Option Nat} (hitems : items.mapM Passage.ofJson? = some passages)
    (hbound : limitOfJson? bound = some limit) :
    ofJson? (Json.ofMembers [("transitions", .array items), ("limit", bound)]) =
      some (ofPassages passages limit) := by
  have hfields : (Json.ofMembers [("transitions", .array items), ("limit", bound)]).fields?
      ["transitions", "limit"] = some [("transitions", .array items), ("limit", bound)] := by
    simp [Json.ofMembers, Json.fields?, Json.keyed?]
  simp [ofJson?, hfields, Json.required?, Json.optional?, Json.array?, List.lookup_cons, hitems,
    hbound]

def crowdedText : String :=
  "\x7b\"transitions\":[" ++
    "\x7b\"from\":\"a\",\"to\":\"b\",\"timestamp\":\"2021-06-01T12:00:00Z\"\x7d," ++
    "\x7b\"from\":\"b\",\"to\":\"c\",\"timestamp\":\"2021-06-01T12:00:01Z\"\x7d]," ++
    "\"limit\":1\x7d"

/-- Two passages under a bound of one. -/
def crowded : History :=
  let noon : Instant :=
    { date := { year := 2021, month := 6, day := 1 }, second := 43200, nanosecond := 0 }
  ofPassages
    [{ source := "a", target := "b", time := noon },
      { source := "b", target := "c", time := { noon with second := 43201 } }]
    (some 1)

theorem ofText?_crowdedText : ofText? crowdedText = some crowded := by decide +kernel

/-! ## Main statement -/

/-- The histories that come about are all within their bounds exactly when those are that
the texts spell: nothing else leads beyond a bound.  A history that is beyond it is brought
back by the next passage, and by clearing. -/
theorem within_iff_read_within (texts : Set String) :
    ((∀ h, Arises texts h → h.Within) ↔
      ∀ text ∈ texts, ∀ h, ofText? text = some h → h.Within) ∧
    ∀ h : History, (∀ p, (h.record p).Within) ∧ h.cleared.Within := by
  refine ⟨⟨?_, ?_⟩, fun h => ⟨within_record h, within_cleared h⟩⟩
  · intro hall text htext h hread
    exact hall h (.read htext hread)
  · intro hread h hh
    obtain hwithin | ⟨text, htext, hspelt⟩ := hh.within_or_read
    · exact hwithin
    · exact hread text htext h hspelt

/-- Where any text may be read, a history can have more passages than its bound. -/
theorem not_forall_arises_within : ¬∀ h, Arises Set.univ h → h.Within := by
  intro hall
  have hcrowded : crowded.Within := hall crowded (.read (Set.mem_univ _) ofText?_crowdedText)
  have hsize : crowded.size ≤ 1 := hcrowded 1 rfl
  exact absurd hsize (by decide)

end History
end Turnstile
