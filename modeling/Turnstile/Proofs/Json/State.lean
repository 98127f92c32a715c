import Turnstile.Json.State
import Turnstile.Proofs.Json.Fields
import Turnstile.Proofs.Json.Layout
import Turnstile.Proofs.Position

/-!
# States and positions in any layout

Flags, states and positions are read from records.  For each of them `MadeOf` says which values
have to stand under the names of its fields, and it is read from a value if and only if the
value spells a record with members that it is made of (`Flags.ofJson?_eq_some_iff` and the like).
Nothing else about a text that lists the members matters: their order, other members and what
these hold, blanks, and which characters are escaped (`State.reads_any_layout`).
-/

namespace Turnstile

open Json (valuesUnder)

/-! ## Flags -/

def Flag.name : Flag → String
  | .initial => "initial"
  | .final => "final"
  | .transient => "transient"

/-- The names of the fields in which flags are kept. -/
def Flags.fieldNames : List String := ["initial", "final", "transient"]

theorem Flag.name_mem_fieldNames (flag : Flag) : flag.name ∈ Flags.fieldNames := by
  cases flag
  all_goals decide

namespace Flags

variable {fs : Flags} {members : List (String × Json)}

/-- One truth value stands under the name of each flag that is raised, and at most one under
that of a flag that is not. -/
def MadeOf (members : List (String × Json)) (fs : Flags) : Prop :=
  ∀ flag : Flag, valuesUnder members flag.name = [.bool (fs.holds flag)] ∨
    valuesUnder members flag.name = [] ∧ fs.holds flag = false

theorem MadeOf.single (h : MadeOf members fs) : Json.Single fieldNames members := by
  have hflag : ∀ flag : Flag, (valuesUnder members flag.name).length ≤ 1 := by
    intro flag
    rcases h flag with hvalue | ⟨hvalue, -⟩
    · rw [hvalue, List.length_singleton]
    · rw [hvalue]
      exact Nat.zero_le 1
  intro name hname
  simp only [fieldNames, List.mem_cons, List.not_mem_nil, or_false] at hname
  rcases hname with rfl | rfl | rfl
  · exact hflag .initial
  · exact hflag .final
  · exact hflag .transient

/-- Truth values make flags. -/
theorem exists_madeOf (h : ∀ flag : Flag, valuesUnder members flag.name = [] ∨
    ∃ b, valuesUnder members flag.name = [.bool b]) : ∃ fs : Flags, fs.MadeOf members := by
  have hraised : ∀ flag : Flag, ∃ b, valuesUnder members flag.name = [.bool b] ∨
      valuesUnder members flag.name = [] ∧ b = false := by
    intro flag
    rcases h flag with hnone | ⟨b, hvalue⟩
    · exact ⟨false, .inr ⟨hnone, rfl⟩⟩
    · exact ⟨b, .inl hvalue⟩
  choose raised hraised using hraised
  refine ⟨{ initial := raised .initial, final := raised .final, transient := raised .transient },
    fun flag => ?_⟩
  cases flag
  all_goals exact hraised _

/-- Flags are read field by field. -/
theorem ofJson?_eq_some_iff_optional? {v : Json} :
    ofJson? v = some fs ↔ ∃ known, v.fields? fieldNames = some known ∧
      ∀ flag : Flag, Json.optional? known flag.name Json.bool? false = some (fs.holds flag) := by
  constructor
  · intro h
    simp only [ofJson?, Option.bind_eq_bind, Option.bind_eq_some_iff, Option.pure_def] at h
    obtain ⟨known, hknown, initial, hinitial, final, hfinal, transient, htransient, h⟩ := h
    obtain rfl := Option.some.inj h
    refine ⟨known, hknown, fun flag => ?_⟩
    cases flag with
    | initial => exact hinitial
    | final => exact hfinal
    | transient => exact htransient
  · rintro ⟨known, hknown, hread⟩
    have hinitial : Json.optional? known "initial" Json.bool? false = some fs.initial :=
      hread .initial
    have hfinal : Json.optional? known "final" Json.bool? false = some fs.final := hread .final
    have htransient : Json.optional? known "transient" Json.bool? false = some fs.transient :=
      hread .transient
    rw [fieldNames] at hknown
    simp only [ofJson?, hknown, hinitial, hfinal, htransient, Option.bind_eq_bind,
      Option.bind_some, Option.pure_def]

theorem ofJson?_eq_some_iff {v : Json} :
    ofJson? v = some fs ↔ ∃ members, v.IsRecord fieldNames members ∧ MadeOf members fs := by
  rw [ofJson?_eq_some_iff_optional?]
  refine Json.exists_fields?_iff (by decide) (fun _ hmade => hmade.single) ?_
  intro members hsingle
  exact forall_congr' fun flag =>
    Json.optional?_bool?_eq_some_iff hsingle flag.name_mem_fieldNames

theorem lists_toJson (fs : Flags) :
    fs.toJson.Lists [("initial", .bool fs.initial), ("final", .bool fs.final),
      ("transient", .bool fs.transient)] :=
  Json.lists_ofMembers _

theorem spelt_toJson (fs : Flags) : fs.toJson.Spelt := by
  refine Json.spelt_ofMembers fun m hm => ?_
  simp only [List.mem_cons, List.not_mem_nil, or_false] at hm
  rcases hm with rfl | rfl | rfl
  all_goals exact Json.spelt_bool _

theorem madeOf_members (fs : Flags) :
    fs.MadeOf [("initial", .bool fs.initial), ("final", .bool fs.final),
      ("transient", .bool fs.transient)] := by
  intro flag
  cases flag
  all_goals exact .inl rfl

end Flags

/-! ## States -/

namespace State

variable {s : State} {members : List (String × Json)}

def fieldNames : List String := ["name", "options"]

/-- One text stands under the name of the name, and under that of the flags one record that
they are made of. -/
structure MadeOf (members : List (String × Json)) (s : State) : Prop where
  name : ∃ ps, valuesUnder members "name" = [.string ps] ∧ Json.text? ps = some s.name
  flags : ∃ v fields, valuesUnder members "options" = [v] ∧
    v.IsRecord Flags.fieldNames fields ∧ s.flags.MadeOf fields

theorem MadeOf.length_valuesUnder (h : MadeOf members s) {name : String}
    (hname : name ∈ fieldNames) : (valuesUnder members name).length = 1 := by
  rcases List.mem_pair.mp hname with rfl | rfl
  · obtain ⟨ps, hvalue, -⟩ := h.name
    rw [hvalue, List.length_singleton]
  · obtain ⟨v, fields, hvalue, -⟩ := h.flags
    rw [hvalue, List.length_singleton]

theorem MadeOf.single (h : MadeOf members s) : Json.Single fieldNames members :=
  fun _ hname => (h.length_valuesUnder hname).le

theorem ofJson?_eq_some_iff_required? {v : Json} :
    ofJson? v = some s ↔ ∃ known, v.fields? fieldNames = some known ∧
      Json.required? known "name" Json.string? = some s.name ∧
      Json.required? known "options" Flags.ofJson? = some s.flags := by
  constructor
  · intro h
    simp only [ofJson?, Option.bind_eq_bind, Option.bind_eq_some_iff, Option.pure_def] at h
    obtain ⟨known, hknown, name, hname, flags, hflags, h⟩ := h
    obtain rfl := Option.some.inj h
    exact ⟨known, hknown, hname, hflags⟩
  · rintro ⟨known, hknown, hname, hflags⟩
    rw [fieldNames] at hknown
    simp only [ofJson?, hknown, hname, hflags, Option.bind_eq_bind, Option.bind_some,
      Option.pure_def]

theorem required?_ofJson?_eq_some_iff (hsingle : Json.Single fieldNames members) {fs : Flags} :
    Json.required? (members.filter fun m => fieldNames.contains m.1) "options" Flags.ofJson? =
        some fs ↔
      ∃ v fields, valuesUnder members "options" = [v] ∧
        v.IsRecord Flags.fieldNames fields ∧ fs.MadeOf fields := by
  rw [Json.required?_eq_some_iff hsingle (by decide)]
  simp only [Flags.ofJson?_eq_some_iff, exists_and_left]

theorem ofJson?_eq_some_iff {v : Json} :
    ofJson? v = some s ↔ ∃ members, v.IsRecord fieldNames members ∧ MadeOf members s := by
  rw [ofJson?_eq_some_iff_required?]
  refine Json.exists_fields?_iff (by decide) (fun _ hmade => hmade.single) ?_
  intro members hsingle
  rw [Json.required?_string?_eq_some_iff hsingle (by decide), required?_ofJson?_eq_some_iff hsingle]
  exact ⟨fun h => ⟨h.1, h.2⟩, fun h => ⟨h.name, h.flags⟩⟩

theorem spelt_toJson (s : State) : s.toJson.Spelt := by
  refine Json.spelt_ofMembers fun m hm => ?_
  rcases List.mem_pair.mp hm with rfl | rfl
  · exact Json.spelt_ofString s.name
  · exact s.flags.spelt_toJson

theorem lists_toJson (s : State) :
    s.toJson.Lists [("name", .ofString s.name), ("options", s.flags.toJson)] :=
  Json.lists_ofMembers _

theorem madeOf_members (s : State) :
    s.MadeOf [("name", .ofString s.name), ("options", s.flags.toJson)] where
  name := ⟨_, rfl, Json.text?_pieces s.name⟩
  flags := ⟨_, _, rfl, .object s.flags.lists_toJson, s.flags.madeOf_members⟩

end State

/-! ## Positions -/

namespace Position

variable {p : Position} {members : List (String × Json)}

def fieldNames : List String := ["current_state"]

/-- One text stands under the name of the field, and it is the name of the state. -/
def MadeOf (members : List (String × Json)) (p : Position) : Prop :=
  ∃ ps, valuesUnder members "current_state" = [.string ps] ∧ Json.text? ps = some p.state

theorem MadeOf.length_valuesUnder (h : MadeOf members p) {name : String}
    (hname : name ∈ fieldNames) : (valuesUnder members name).length = 1 := by
  obtain rfl := List.mem_singleton.mp hname
  obtain ⟨ps, hvalue, -⟩ := h
  rw [hvalue, List.length_singleton]

theorem MadeOf.single (h : MadeOf members p) : Json.Single fieldNames members :=
  fun _ hname => (h.length_valuesUnder hname).le

theorem ofJson?_eq_some_iff_required? {v : Json} :
    ofJson? v = some p ↔ ∃ known, v.fields? fieldNames = some known ∧
      Json.required? known "current_state" Json.string? = some p.state := by
  constructor
  · intro h
    simp only [ofJson?, Option.bind_eq_bind, Option.bind_eq_some_iff, Option.pure_def] at h
    obtain ⟨known, hknown, state, hstate, h⟩ := h
    obtain rfl := Option.some.inj h
    exact ⟨known, hknown, hstate⟩
  · rintro ⟨known, hknown, hstate⟩
    rw [fieldNames] at hknown
    simp only [ofJson?, hknown, hstate, Option.bind_eq_bind, Option.bind_some, Option.pure_def]

theorem ofJson?_eq_some_iff {v : Json} :
    ofJson? v = some p ↔ ∃ members, v.IsRecord fieldNames members ∧ MadeOf members p := by
  rw [ofJson?_eq_some_iff_required?]
  exact Json.exists_fields?_iff (by decide) (fun _ hmade => hmade.single) fun _ hsingle =>
    Json.required?_string?_eq_some_iff hsingle (by decide)

theorem ofText_eq_ok_iff {text : String} :
    ofText text = .ok p ↔ (Json.parse? text).bind ofJson? = some p := by
  unfold ofText
  cases (Json.parse? text).bind ofJson? with
  | none => simp
  | some q => simp

theorem unreadable_ofText_of_forall_ne {text : String} (h : ∀ p, ofText text ≠ .ok p) :
    Unreadable (ofText text) := by
  unfold ofText at h ⊢
  cases hread : (Json.parse? text).bind ofJson? with
  | none => exact ⟨_, rfl⟩
  | some q =>
    rw [hread] at h
    exact absurd rfl (h q)

end Position

/-! ## Texts -/

section
variable {text : String} {v : Json} {members : List (String × Json)}

theorem Flags.ofText?_eq_some_iff (htext : v.LaidOut text) (hv : v.Lists members) {fs : Flags} :
    Flags.ofText? text = some fs ↔ fs.MadeOf members := by
  rw [Flags.ofText?, Json.parse?_eq_some_iff.mpr htext, Option.bind_some,
    Flags.ofJson?_eq_some_iff, hv.exists_isRecord_iff]

theorem State.ofText?_eq_some_iff (htext : v.LaidOut text) (hv : v.Lists members) {s : State} :
    State.ofText? text = some s ↔ s.MadeOf members := by
  rw [State.ofText?, Json.parse?_eq_some_iff.mpr htext, Option.bind_some,
    State.ofJson?_eq_some_iff, hv.exists_isRecord_iff]

theorem State.ofText?_eq_none_of_length_ne (htext : v.LaidOut text) (hv : v.Lists members)
    {name : String} (hname : name ∈ State.fieldNames)
    (hlength : (valuesUnder members name).length ≠ 1) : State.ofText? text = none :=
  Option.eq_none_iff_forall_ne_some.mpr fun _ hread =>
    hlength (((State.ofText?_eq_some_iff htext hv).mp hread).length_valuesUnder hname)

theorem Position.ofText_eq_ok_iff_of_lists (htext : v.LaidOut text) (hv : v.Lists members)
    {p : Position} : Position.ofText text = .ok p ↔ p.MadeOf members := by
  rw [Position.ofText_eq_ok_iff, Json.parse?_eq_some_iff.mpr htext, Option.bind_some,
    Position.ofJson?_eq_some_iff, hv.exists_isRecord_iff]

theorem Position.unreadable_ofText_of_length_ne (htext : v.LaidOut text) (hv : v.Lists members)
    {name : String} (hname : name ∈ Position.fieldNames)
    (hlength : (valuesUnder members name).length ≠ 1) : Unreadable (Position.ofText text) :=
  Position.unreadable_ofText_of_forall_ne fun _ hread =>
    hlength (((Position.ofText_eq_ok_iff_of_lists htext hv).mp hread).length_valuesUnder hname)

end

/-! ## Main statement -/

namespace State

/-- A state is read back from its text.  From a text that spells an object, flags, states and
positions are read just when they are made of its members, in whatever order these stand, among
whatever other members, and however the text is laid out.  Flags ask no more of the members than
that each of their fields, if it is there, is there once and holds a truth value.  Nothing is read
when a required field is missing, or when a field is there twice. -/
theorem reads_any_layout :
    (∀ s : State, ofText? s.toJson.toText = some s) ∧
    ∀ (text : String) (v : Json) (members : List (String × Json)),
      v.LaidOut text → v.Lists members →
        (∀ fs : Flags, Flags.ofText? text = some fs ↔ fs.MadeOf members) ∧
        (∀ s : State, ofText? text = some s ↔ s.MadeOf members) ∧
        (∀ p : Position, Position.ofText text = .ok p ↔ p.MadeOf members) ∧
        ((∀ flag : Flag, valuesUnder members flag.name = [] ∨
            ∃ b, valuesUnder members flag.name = [.bool b]) → ∃ fs : Flags, fs.MadeOf members) ∧
        (∀ name ∈ fieldNames, valuesUnder members name = [] → ofText? text = none) ∧
        (∀ name ∈ Position.fieldNames, valuesUnder members name = [] →
          Position.Unreadable (Position.ofText text)) ∧
        (∀ name ∈ Flags.fieldNames, 1 < (valuesUnder members name).length →
          Flags.ofText? text = none) ∧
        (∀ name ∈ fieldNames, 1 < (valuesUnder members name).length → ofText? text = none) ∧
        ∀ name ∈ Position.fieldNames, 1 < (valuesUnder members name).length →
          Position.Unreadable (Position.ofText text) := by
  refine ⟨fun s => ?_, ?_⟩
  · -- what is written is one of the layouts
    exact (ofText?_eq_some_iff s.spelt_toJson.laidOut_toText s.lists_toJson).mpr s.madeOf_members
  intro text v members htext hv
  have hmissing : ∀ name, valuesUnder members name = [] →
      (valuesUnder members name).length ≠ 1 := by
    intro name hnone
    rw [hnone]
    exact Nat.zero_ne_one
  refine ⟨fun _ => Flags.ofText?_eq_some_iff htext hv, fun _ => ofText?_eq_some_iff htext hv,
    fun _ => Position.ofText_eq_ok_iff_of_lists htext hv, Flags.exists_madeOf, ?_, ?_, ?_, ?_, ?_⟩
  · exact fun name hname hnone => ofText?_eq_none_of_length_ne htext hv hname (hmissing name hnone)
  · exact fun name hname hnone =>
      Position.unreadable_ofText_of_length_ne htext hv hname (hmissing name hnone)
  · intro name hname htwice
    refine Option.eq_none_iff_forall_ne_some.mpr fun fs hread => ?_
    have hsingle := ((Flags.ofText?_eq_some_iff htext hv).mp hread).single name hname
    exact absurd htwice (Nat.not_lt.mpr hsingle)
  · exact fun name hname htwice => ofText?_eq_none_of_length_ne htext hv hname htwice.ne'
  · exact fun name hname htwice =>
      Position.unreadable_ofText_of_length_ne htext hv hname htwice.ne'

/-- A state whose fields stand among others, with half a character in one of these.  A key and
the name are escaped. -/
def smileyText : String :=
  " \x7b \"x\" : [1e5, \x7b\"\\ud83d\" : null\x7d ],\n\"options\":\x7b\"transient\":true," ++
    "\"?\":-0.50\x7d,\t\"n\\u0061me\" : \"\\ud83d\\ude00\" \x7d "

def smileyFlags : List (String × Json) :=
  [("transient", .bool true), ("?", .number ['-', '0', '.', '5', '0'])]

def smileyMembers : List (String × Json) :=
  [("x", .array [.number ['1', 'e', '5'], .object [([.high 0x3D], .null)]]),
    ("options", Json.ofMembers smileyFlags), ("name", .string [.high 0x3D, .low 0x200])]

theorem laidOut_smileyText : (Json.ofMembers smileyMembers).LaidOut smileyText :=
  Json.laidOut_iff.mpr (by decide +kernel)

/-- The text is that of a state and that of no position, and no flag is mentioned in it but among
the options. -/
theorem reads_any_layout_smiley :
    (Json.ofMembers smileyMembers).LaidOut smileyText ∧
      (Json.ofMembers smileyMembers).Lists smileyMembers ∧
      ofText? smileyText = some { name := "😀", flags := { transient := true } } ∧
      Flags.ofText? smileyText = some {} ∧
      Position.Unreadable (Position.ofText smileyText) ∧
      Flags.ofText? "\x7b\"final\":true,\"fin\\u0061l\":true\x7d" = none := by
  have hv := Json.lists_ofMembers smileyMembers
  obtain ⟨hflags, hstate, -, -, -, hposition, -⟩ :=
    reads_any_layout.2 smileyText _ smileyMembers laidOut_smileyText hv
  obtain ⟨-, -, -, -, -, -, htwice, -⟩ :=
    reads_any_layout.2 "\x7b\"final\":true,\"fin\\u0061l\":true\x7d" _
      [("final", .bool true), ("final", .bool true)] (Json.laidOut_iff.mpr (by decide +kernel))
      (Json.lists_ofMembers _)
  refine ⟨laidOut_smileyText, hv, (hstate _).mpr ⟨?_, ?_⟩, (hflags _).mpr ?_, ?_, ?_⟩
  · exact ⟨[.high 0x3D, .low 0x200], rfl, by decide⟩
  · refine ⟨_, smileyFlags, rfl, .object (Json.lists_ofMembers smileyFlags), fun flag => ?_⟩
    cases flag with
    | initial | final => exact .inr ⟨rfl, rfl⟩
    | transient => exact .inl rfl
  · intro flag
    cases flag
    all_goals exact .inr ⟨rfl, rfl⟩
  · exact hposition "current_state" List.mem_cons_self rfl
  · exact htwice "final" (by decide) (by decide)

end State
end Turnstile
