import Turnstile.Proofs.History
import Turnstile.Proofs.Json.Reading
import Turnstile.Proofs.Time.Reading
import Turnstile.Proofs.Time.Validity

/-!
# Histories are read back from their texts

A history is written as an array of passages and a bound, and a passage as three texts, the
last of them the stamp of its time.  Each part is read back from what is written for it,
whatever characters the names have, and so is the whole (`History.reads_back`).

The reader takes more than the writer writes: members in another order, blanks, stamps with
offsets.  What it takes, however, is always something that can be written, and is then read
back.  So a text that was written once more is in a form that reading and writing keep.
-/

namespace Turnstile

theorem Json.natural?_ofNat (n : Nat) : (Json.ofNat n).natural? = some n := by
  have hdigits : (Text.digits n).all Char.isDigit = true :=
    List.all_eq_true.mpr fun _ hc => Text.isDigit_of_mem_digits hc
  rw [Json.ofNat, Json.natural?, if_pos hdigits, Text.digitsValue_digits]

/-! ## Passages -/

namespace Passage

variable {p : Passage}

/-- The passage that a text spells. -/
def ofText? (text : String) : Option Passage := (Json.parse? text).bind ofJson?

theorem spelt_toJson (p : Passage) : p.toJson.Spelt := by
  refine Json.spelt_ofMembers fun m hm => ?_
  simp only [List.mem_cons, List.not_mem_nil, or_false] at hm
  rcases hm with rfl | rfl | rfl
  all_goals exact Json.spelt_ofString _

theorem ofJson?_toJson (hp : p.time.Valid) : ofJson? p.toJson = some p := by
  have hfields : p.toJson.fields? ["from", "to", "timestamp"] =
      some [("from", .ofString p.source), ("to", .ofString p.target),
        ("timestamp", .ofString p.time.stamp)] := by
    simp [toJson, Json.ofMembers, Json.fields?, Json.keyed?]
  simp [ofJson?, hfields, Json.required?, List.lookup_cons, Instant.ofStamp?_stamp hp]

theorem valid_of_ofJson? {v : Json} (h : ofJson? v = some p) : p.time.Valid := by
  simp only [ofJson?, Option.bind_eq_bind, Option.bind_eq_some_iff, Option.pure_def] at h
  obtain ⟨fields, -, source, -, target, -, stamp, -, time, htime, h⟩ := h
  obtain rfl := Option.some.inj h
  exact Instant.valid_of_ofStamp? htime

theorem ofText?_toText (hp : p.time.Valid) : ofText? p.toJson.toText = some p := by
  rw [ofText?, p.spelt_toJson.parse?_toText, Option.bind_some, ofJson?_toJson hp]

theorem mapM_ofJson?_map_toJson {ps : List Passage} (hps : ∀ p ∈ ps, p.time.Valid) :
    (ps.map toJson).mapM ofJson? = some ps := by
  induction ps with
  | nil => rfl
  | cons p ps ih =>
    obtain ⟨hp, hothers⟩ := List.forall_mem_cons.mp hps
    rw [List.map_cons, List.mapM_cons, ofJson?_toJson hp, ih hothers]
    rfl

theorem valid_of_mapM_ofJson? {items : List Json} {ps : List Passage}
    (h : items.mapM ofJson? = some ps) : ∀ p ∈ ps, p.time.Valid := by
  induction items generalizing ps with
  | nil =>
    obtain rfl := Option.some.inj h
    exact fun _ hp => absurd hp List.not_mem_nil
  | cons item items ih =>
    rw [List.mapM_cons] at h
    simp only [Option.bind_eq_bind, Option.bind_eq_some_iff, Option.pure_def] at h
    obtain ⟨p, hp, ps, hps, h⟩ := h
    obtain rfl := Option.some.inj h
    exact List.forall_mem_cons.mpr ⟨valid_of_ofJson? hp, ih hps⟩

end Passage

/-! ## Histories -/

namespace History

variable {h : History}

/-- The passages were made at times that exist, and the bound has at most 64 bits. -/
structure Writable (h : History) : Prop where
  times : ∀ p ∈ h.passages, p.time.Valid
  limit : ∀ n, h.limit = some n → n < UInt64.size

theorem spelt_limitToJson (limit : Option Nat) : (limitToJson limit).Spelt := by
  cases limit with
  | none => exact Json.spelt_null
  | some n => exact Json.spelt_ofNat n

theorem limitOfJson?_limitToJson {limit : Option Nat}
    (hlimit : ∀ n, limit = some n → n < UInt64.size) :
    limitOfJson? (limitToJson limit) = some limit := by
  cases limit with
  | none => rfl
  | some n =>
    have hread : limitOfJson? (.ofNat n) =
        (Json.ofNat n).natural?.bind fun m => if m < UInt64.size then some (some m) else none := rfl
    rw [limitToJson, hread, Json.natural?_ofNat, Option.bind_some, if_pos (hlimit n rfl)]

theorem lt_of_limitOfJson? {v : Json} {limit : Option Nat} (hread : limitOfJson? v = some limit) :
    ∀ n, limit = some n → n < UInt64.size := by
  rintro n rfl
  unfold limitOfJson? at hread
  split at hread
  · cases hread
  · simp only [Option.bind_eq_bind, Option.bind_eq_some_iff] at hread
    obtain ⟨m, -, hread⟩ := hread
    split at hread
    · next hlt => exact Option.some.inj (Option.some.inj hread) ▸ hlt
    · cases hread

theorem spelt_toJson (h : History) : h.toJson.Spelt := by
  refine Json.spelt_ofMembers fun m hm => ?_
  rcases List.mem_pair.mp hm with rfl | rfl
  · refine Json.spelt_array fun v hv => ?_
    obtain ⟨p, -, rfl⟩ := List.mem_map.mp hv
    exact p.spelt_toJson
  · exact spelt_limitToJson h.limit

theorem Writable.ofJson?_toJson (hh : h.Writable) : ofJson? h.toJson = some h := by
  rw [toJson, ofJson?_ofMembers (Passage.mapM_ofJson?_map_toJson hh.times)
    (limitOfJson?_limitToJson hh.limit), ofPassages_passages]

theorem Writable.ofText?_toText (hh : h.Writable) : ofText? h.toJson.toText = some h := by
  rw [ofText?, h.spelt_toJson.parse?_toText, Option.bind_some, hh.ofJson?_toJson]

theorem Writable.of_ofJson? {v : Json} (hread : ofJson? v = some h) : h.Writable := by
  simp only [ofJson?, Option.bind_eq_bind, Option.bind_eq_some_iff, Option.pure_def] at hread
  obtain ⟨fields, -, items, -, passages, hpassages, limit, hlimit, hread⟩ := hread
  obtain rfl := Option.some.inj hread
  refine ⟨?_, ?_⟩
  · rw [passages_ofPassages]
    exact Passage.valid_of_mapM_ofJson? hpassages
  · unfold Json.optional? at hlimit
    split at hlimit
    · exact lt_of_limitOfJson? hlimit
    · obtain rfl := Option.some.inj hlimit
      intro n hn
      cases hn

theorem Writable.of_ofText? {text : String} (hread : ofText? text = some h) : h.Writable := by
  obtain ⟨v, -, hv⟩ := Option.bind_eq_some_iff.mp hread
  exact .of_ofJson? hv

/-! ## Main statement -/

/-- Histories and passages are read back from their texts, whatever the names are and however
many passages there are: the times have to exist, be it in a leap second or in a year of five
digits, and the bound has to have 64 bits.  What is read from any text is of that kind, and
reading what is written for it and writing that again does not change the text. -/
theorem reads_back :
    (∀ h : History, h.Writable → ofText? h.toJson.toText = some h) ∧
    (∀ p : Passage, p.time.Valid → Passage.ofText? p.toJson.toText = some p) ∧
    (∀ text h, ofText? text = some h → h.Writable ∧
      (ofText? h.toJson.toText).map (fun g => g.toJson.toText) = some h.toJson.toText) ∧
    ∀ text p, Passage.ofText? text = some p → p.time.Valid ∧
      (Passage.ofText? p.toJson.toText).map (fun q => q.toJson.toText) = some p.toJson.toText := by
  refine ⟨fun _ => Writable.ofText?_toText, fun _ => Passage.ofText?_toText, ?_, ?_⟩
  · intro text h hread
    have hh : h.Writable := .of_ofText? hread
    exact ⟨hh, by rw [hh.ofText?_toText, Option.map_some]⟩
  · intro text p hread
    obtain ⟨v, -, hv⟩ := Option.bind_eq_some_iff.mp hread
    have hp := Passage.valid_of_ofJson? hv
    exact ⟨hp, by rw [Passage.ofText?_toText hp, Option.map_some]⟩

/-- From the first to the last of the years that have four digits, past a leap day, under the
largest bound. -/
def journey : History :=
  ofPassages
    [{ source := "\"\u00e9\\", target := "\u2603\n",
        time := { date := { year := 0, month := 1, day := 1 }, second := 0, nanosecond := 0 } },
      { source := "\u2603\n", target := "",
        time :=
          { date := { year := 2024, month := 2, day := 29 }, second := 3661, nanosecond := 70 } },
      { source := "", target := "\x01",
        time :=
          { date := { year := 9999, month := 12, day := 31 }, second := 86399,
            nanosecond := 999000000 } }]
    (some 18446744073709551615)

/-- Made in a leap second on a leap day. -/
def late : Passage :=
  { source := "", target := "b",
    time :=
      { date := { year := 2024, month := 2, day := 29 }, second := 82799,
        nanosecond := 1500000000 } }

/-- The late passage is read from an array whose stamp has an offset into the next month, and is
not written like that. -/
theorem reads_back_journey :
    journey.Writable ∧ ofText? journey.toJson.toText = some journey ∧
      Passage.ofText? " [ \"\", \"b\", \"2024-3-1t00:59:60.5000+02:00\"]" = some late ∧
      late.toJson.toText =
        "\x7b\"from\":\"\",\"to\":\"b\",\"timestamp\":\"2024-02-29T22:59:60.500Z\"\x7d" ∧
      (Passage.ofText? late.toJson.toText).map (fun q => q.toJson.toText) =
        some late.toJson.toText := by
  have hjourney : journey.Writable := by
    refine ⟨by decide, fun n hn => ?_⟩
    rw [← Option.some.inj hn]
    decide
  have hlate : Passage.ofText? " [ \"\", \"b\", \"2024-3-1t00:59:60.5000+02:00\"]" =
      some late := by decide +kernel
  obtain ⟨hhistory, -, -, hpassage⟩ := reads_back
  exact ⟨hjourney, hhistory journey hjourney, hlate, by decide +kernel, (hpassage _ _ hlate).2⟩

end History
end Turnstile
