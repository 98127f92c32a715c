import Mathlib.Data.List.Nodup
import Turnstile.Json.Fields

/-!
# The fields of a record

What a record is read from are the values that stand under the names of its fields
(`valuesUnder`), and neither the order of the members nor other members among them.  A record is
refused when two values stand under one of the names (`fields?_eq_some_iff`).  Where there is at
most one, a field that is required takes the value that there is, and one that may be left out
takes its own value if there is none (`required?_eq_some_iff`, `optional?_eq_some_iff`).
-/

namespace Turnstile
namespace Json

/-! ## Members and names -/

/-- The values that stand under a name, in their order. -/
def valuesUnder (members : List (String × Json)) (name : String) : List Json :=
  (members.filter fun m => m.1 = name).map Prod.snd

/-- The members of an object with the names that their keys spell. -/
inductive Named : List (List Piece × Json) → List (String × Json) → Prop
  | nil : Named [] []
  | cons {key : List Piece} {name : String} {v : Json} {ms : List (List Piece × Json)}
      {members : List (String × Json)} (hkey : text? key = some name) (hms : Named ms members) :
      Named ((key, v) :: ms) ((name, v) :: members)

/-- The value is an object of the given members, each under a name that is a text.  A key may be
half a character, but that names nothing, and no record is read from an object with such a key. -/
inductive Lists : Json → List (String × Json) → Prop
  | object {ms : List (List Piece × Json)} {members : List (String × Json)}
      (h : Named ms members) : Lists (.object ms) members

/-- The value spells a record that has the given members.  It may list them, or it may be an
array of the fields' values in the order of their names, where the last ones may be missing. -/
inductive IsRecord (names : List String) : Json → List (String × Json) → Prop
  | object {v : Json} {members : List (String × Json)} (h : v.Lists members) :
      IsRecord names v members
  | array {items : List Json} (h : items.length ≤ names.length) :
      IsRecord names (.array items) (names.zip items)

theorem keyed?_eq_some_iff {ms : List (List Piece × Json)} {members : List (String × Json)} :
    keyed? ms = some members ↔ Named ms members := by
  constructor
  · intro h
    induction ms generalizing members with
    | nil =>
      obtain rfl := Option.some.inj h
      exact .nil
    | cons m ms ih =>
      simp only [keyed?, List.mapM_cons, Option.bind_eq_bind, Option.bind_eq_some_iff,
        Option.map_eq_some_iff, Option.pure_def, Option.some.injEq] at h
      obtain ⟨-, ⟨name, hkey, rfl⟩, members, hms, rfl⟩ := h
      exact .cons hkey (ih hms)
  · intro h
    induction h with
    | nil => rfl
    | cons hkey _ ih =>
      rw [keyed?] at ih
      simp [keyed?, List.mapM_cons, hkey, ih]

/-- The members of an object are named in one way at most. -/
theorem Lists.eq {v : Json} {members others : List (String × Json)} (h : v.Lists members)
    (ho : v.Lists others) : others = members := by
  obtain ⟨h⟩ := h
  obtain ⟨ho⟩ := ho
  have hread := keyed?_eq_some_iff.mpr h
  rw [keyed?_eq_some_iff.mpr ho] at hread
  exact Option.some.inj hread

theorem lists_ofMembers (members : List (String × Json)) : (ofMembers members).Lists members := by
  refine .object ?_
  induction members with
  | nil => exact .nil
  | cons m members ih => exact .cons (text?_pieces m.1) ih

theorem Lists.isRecord_iff {v : Json} {members fields : List (String × Json)} {names : List String}
    (h : v.Lists members) : v.IsRecord names fields ↔ fields = members := by
  constructor
  · intro hfields
    cases hfields with
    | object hfields => exact h.eq hfields
    | array _ => cases h
  · rintro rfl
    exact .object h

theorem Lists.exists_isRecord_iff {v : Json} {members : List (String × Json)} {names : List String}
    (h : v.Lists members) {P : List (String × Json) → Prop} :
    (∃ fields, v.IsRecord names fields ∧ P fields) ↔ P members := by
  simp only [h.isRecord_iff, exists_eq_left]

/-! ## Fields -/

variable {names : List String} {members : List (String × Json)} {name : String}

theorem valuesUnder_cons (m : String × Json) (members : List (String × Json)) (name : String) :
    valuesUnder (m :: members) name =
      if m.1 = name then m.2 :: valuesUnder members name else valuesUnder members name := by
  unfold valuesUnder
  by_cases h : m.1 = name
  · rw [List.filter_cons_of_pos (by simpa using h), List.map_cons, if_pos h]
  · rw [List.filter_cons_of_neg (by simpa using h), if_neg h]

theorem length_valuesUnder (members : List (String × Json)) (name : String) :
    (valuesUnder members name).length = (members.map Prod.fst).count name := by
  induction members with
  | nil => rfl
  | cons m members ih =>
    rw [valuesUnder_cons, List.map_cons, List.count_cons, ← ih]
    by_cases h : m.1 = name
    · simp [h]
    · simp [h]

/-- No value stands under one of the names beside another one. -/
def Single (names : List String) (members : List (String × Json)) : Prop :=
  ∀ name ∈ names, (valuesUnder members name).length ≤ 1

theorem valuesUnder_filter_contains (hname : name ∈ names) :
    valuesUnder (members.filter fun m => names.contains m.1) name = valuesUnder members name := by
  unfold valuesUnder
  rw [List.filter_filter]
  congr 1
  refine List.filter_congr fun m _ => ?_
  by_cases h : m.1 = name
  · simp [h, hname]
  · simp [h]

theorem nodup_known_iff :
    ((members.filter fun m => names.contains m.1).map Prod.fst).Nodup ↔ Single names members := by
  rw [List.nodup_iff_count_le_one]
  constructor
  · intro h name hname
    rw [← valuesUnder_filter_contains hname, length_valuesUnder]
    exact h name
  · intro h name
    by_cases hname : name ∈ names
    · rw [← length_valuesUnder, valuesUnder_filter_contains hname]
      exact h name hname
    · rw [List.count_eq_zero_of_not_mem]
      · exact Nat.zero_le 1
      · intro hmem
        obtain ⟨m, hm, rfl⟩ := List.mem_map.mp hmem
        exact hname (List.contains_iff_mem.mp (List.mem_filter.mp hm).2)

theorem lookup_eq_head?_valuesUnder (members : List (String × Json)) (name : String) :
    members.lookup name = (valuesUnder members name).head? := by
  induction members with
  | nil => rfl
  | cons m members ih =>
    rw [valuesUnder_cons, List.lookup_cons]
    by_cases h : m.1 = name
    · rw [if_pos h, beq_iff_eq.mpr h.symm, List.head?_cons]
    · rw [if_neg h, beq_eq_false_iff_ne.mpr (Ne.symm h), ih]

theorem single_zip (hnames : names.Nodup) (items : List Json) : Single names (names.zip items) := by
  intro name _
  rw [length_valuesUnder, List.zip_eq_zip_take_min, List.map_fst_zip (by simp)]
  exact List.nodup_iff_count_le_one.mp (hnames.sublist (List.take_sublist ..)) name

theorem filter_zip (names : List String) (items : List Json) :
    ((names.zip items).filter fun m => names.contains m.1) = names.zip items :=
  List.filter_eq_self.mpr fun _ hm => List.contains_iff_mem.mpr (List.of_mem_zip hm).1

/-- The fields of a record are its members under the names of the fields, and there are none if
two of them have the same name. -/
theorem fields?_eq_some_iff (hnames : names.Nodup) {v : Json} {known : List (String × Json)} :
    v.fields? names = some known ↔ ∃ fields, v.IsRecord names fields ∧ Single names fields ∧
      known = fields.filter fun m => names.contains m.1 := by
  constructor
  · intro h
    unfold fields? at h
    split at h
    · next ms =>
      simp only [Option.bind_eq_bind, Option.bind_eq_some_iff] at h
      obtain ⟨fields, hkeyed, h⟩ := h
      split at h
      · next hnodup =>
        exact ⟨fields, .object ⟨keyed?_eq_some_iff.mp hkeyed⟩, nodup_known_iff.mp hnodup,
          (Option.some.inj h).symm⟩
      · cases h
    · next items =>
      split at h
      · next hlength =>
        refine ⟨_, .array hlength, single_zip hnames items, ?_⟩
        rw [filter_zip, Option.some.inj h]
      · cases h
    · cases h
  · rintro ⟨fields, hrecord, hsingle, rfl⟩
    cases hrecord with
    | object h =>
      obtain ⟨hms⟩ := h
      simp only [fields?, keyed?_eq_some_iff.mpr hms, Option.bind_eq_bind, Option.bind_some,
        if_pos (nodup_known_iff.mpr hsingle)]
    | array hlength => rw [filter_zip, fields?, if_pos hlength]

/-! ## Reading a field -/

variable {α : Type} {read : Json → Option α} {x : α}

theorem head?_eq_some_iff_of_length_le_one {vs : List Json} (h : vs.length ≤ 1) {v : Json} :
    vs.head? = some v ↔ vs = [v] := by
  match vs with
  | [] => simp
  | [w] => simp
  | _ :: _ :: _ => simp at h

theorem lookup_known (hname : name ∈ names) :
    (members.filter fun m => names.contains m.1).lookup name =
      (valuesUnder members name).head? := by
  rw [lookup_eq_head?_valuesUnder, valuesUnder_filter_contains hname]

theorem required?_eq_some_iff (hsingle : Single names members) (hname : name ∈ names) :
    required? (members.filter fun m => names.contains m.1) name read = some x ↔
      ∃ v, valuesUnder members name = [v] ∧ read v = some x := by
  simp only [required?, lookup_known hname, Option.bind_eq_some_iff,
    head?_eq_some_iff_of_length_le_one (hsingle name hname)]

theorem optional?_eq_some_iff (hsingle : Single names members) (hname : name ∈ names) {absent : α} :
    optional? (members.filter fun m => names.contains m.1) name read absent = some x ↔
      (∃ v, valuesUnder members name = [v] ∧ read v = some x) ∨
        valuesUnder members name = [] ∧ x = absent := by
  have hlength := hsingle name hname
  rw [optional?, lookup_known hname]
  cases hvalues : valuesUnder members name with
  | nil => simp [eq_comm]
  | cons v vs =>
    rw [hvalues] at hlength
    obtain rfl := List.eq_nil_of_length_eq_zero (Nat.le_zero.mp (Nat.le_of_succ_le_succ hlength))
    simp

/-- What is read from the fields of a value is what its members make, if they make it just where
reading the fields they have gives it. -/
theorem exists_fields?_iff (hnames : names.Nodup) {v : Json}
    {reads makes : List (String × Json) → Prop}
    (hsingle : ∀ members, makes members → Single names members)
    (hreads : ∀ members, Single names members →
      (reads (members.filter fun m => names.contains m.1) ↔ makes members)) :
    (∃ known, v.fields? names = some known ∧ reads known) ↔
      ∃ members, v.IsRecord names members ∧ makes members := by
  constructor
  · rintro ⟨known, hknown, hread⟩
    obtain ⟨members, hrecord, hone, rfl⟩ := (fields?_eq_some_iff hnames).mp hknown
    exact ⟨members, hrecord, (hreads members hone).mp hread⟩
  · rintro ⟨members, hrecord, hmakes⟩
    have hone := hsingle members hmakes
    exact ⟨_, (fields?_eq_some_iff hnames).mpr ⟨members, hrecord, hone, rfl⟩,
      (hreads members hone).mpr hmakes⟩

/-! Fields that hold a text or a truth value. -/

theorem string?_eq_some_iff {v : Json} {text : String} :
    v.string? = some text ↔ ∃ ps, v = .string ps ∧ text? ps = some text := by
  cases v
  all_goals simp [string?]

theorem bool?_eq_some_iff {v : Json} {b : Bool} : v.bool? = some b ↔ v = .bool b := by
  cases v
  all_goals simp [bool?]

theorem required?_string?_eq_some_iff (hsingle : Single names members) (hname : name ∈ names)
    {text : String} :
    required? (members.filter fun m => names.contains m.1) name string? = some text ↔
      ∃ ps, valuesUnder members name = [.string ps] ∧ text? ps = some text := by
  rw [required?_eq_some_iff hsingle hname]
  constructor
  · rintro ⟨v, hvalue, hread⟩
    obtain ⟨ps, rfl, htext⟩ := string?_eq_some_iff.mp hread
    exact ⟨ps, hvalue, htext⟩
  · rintro ⟨ps, hvalue, htext⟩
    exact ⟨_, hvalue, htext⟩

theorem optional?_bool?_eq_some_iff (hsingle : Single names members) (hname : name ∈ names)
    {b absent : Bool} :
    optional? (members.filter fun m => names.contains m.1) name bool? absent = some b ↔
      valuesUnder members name = [.bool b] ∨ valuesUnder members name = [] ∧ b = absent := by
  rw [optional?_eq_some_iff hsingle hname]
  simp only [bool?_eq_some_iff, exists_eq_right]

end Json
end Turnstile
