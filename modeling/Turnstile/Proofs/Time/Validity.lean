import Turnstile.Proofs.Text.Decimal
import Turnstile.Time.Stamp

/-!
# What is read from a stamp is an instant

The reader of stamps is freer than the writer: it takes any offset from universal time, short
numbers, and more digits of a second than there are nanoseconds.  Whatever it takes is an
instant of an existing day (`valid_of_ofStamp?`), also where the offset leads to the day before
or to the day after, and where the second is a leap second.
-/

namespace Turnstile

namespace Date

variable {d e : Date}

theorem one_le_monthLength (year : Int) (month : Nat) : 1 ≤ monthLength year month := by
  unfold monthLength
  split <;> (try split) <;> decide

theorem Valid.of_next? (hd : d.Valid) (h : d.next? = some e) : e.Valid := by
  obtain ⟨hyear, ⟨hmonth, hlast⟩, hday, -⟩ := hd
  unfold next? at h
  split at h
  · next hlt =>
    obtain rfl := Option.some.inj h
    exact ⟨hyear, ⟨hmonth, hlast⟩, Nat.le_add_left _ _, hlt⟩
  split at h
  · next hlt =>
    obtain rfl := Option.some.inj h
    exact ⟨hyear, ⟨Nat.le_add_left _ _, hlt⟩, Nat.le_refl _, one_le_monthLength _ _⟩
  · exact valid_of_of? h

theorem Valid.of_previous? (hd : d.Valid) (h : d.previous? = some e) : e.Valid := by
  obtain ⟨hyear, ⟨hmonth, hlast⟩, hday, hle⟩ := hd
  unfold previous? at h
  split at h
  · next hlt =>
    obtain rfl := Option.some.inj h
    exact ⟨hyear, ⟨hmonth, hlast⟩, Nat.le_sub_one_of_lt hlt, Nat.le_trans (Nat.sub_le _ _) hle⟩
  split at h
  · next hlt =>
    obtain rfl := Option.some.inj h
    exact ⟨hyear, ⟨Nat.le_sub_one_of_lt hlt, Nat.le_trans (Nat.sub_le _ _) hlast⟩,
      one_le_monthLength _ _, Nat.le_refl _⟩
  · exact valid_of_of? h

end Date

namespace Instant

open Text

variable {cs rest : List Char} {shown i : Instant}

instance (i : Instant) : Decidable i.Valid :=
  inferInstanceAs (Decidable (_ ∧ _ ∧ _ ∧ _))

/-- The digits beyond the ninth are dropped, so no fraction amounts to a second. -/
theorem lt_of_fraction? {nanos : Nat} (h : fraction? cs = some (nanos, rest)) :
    nanos < nanosPerSecond := by
  unfold fraction? at h
  split at h
  · next tail =>
    split at h
    · cases h
    · next d ds htake =>
      obtain ⟨rfl, -⟩ := Prod.mk.inj (Option.some.inj h)
      have hdigits : ∀ c ∈ ((d :: ds).take 9).rightpad 9 '0', c.isDigit = true := by
        intro c hc
        rcases List.mem_append.mp hc with hc | hc
        · have htail : c ∈ tail.takeWhile Char.isDigit := htake ▸ List.mem_of_mem_take hc
          exact List.all_eq_true.mp List.all_takeWhile c htail
        · rw [List.eq_of_mem_replicate hc]
          decide
      have hlength : (((d :: ds).take 9).rightpad 9 '0').length = 9 := by
        rw [List.rightpad, List.length_append, List.length_replicate, List.length_take]
        omega
      have hlt := digitsValue_lt hdigits
      rwa [hlength] at hlt
  · obtain ⟨rfl, -⟩ := Prod.mk.inj (Option.some.inj h)
    decide

/-- A day and a time of day are refused unless there are such. -/
theorem valid_of_shown? (h : shown? cs = some (i, rest)) : i.Valid := by
  simp only [shown?, Option.bind_eq_bind, Option.bind_eq_some_iff] at h
  obtain ⟨⟨year, _⟩, -, _, -, ⟨month, _⟩, -, _, -, ⟨day, _⟩, -, _, -, ⟨hour, _⟩, -, _, -,
    ⟨minute, _⟩, -, _, -, ⟨second, _⟩, -, ⟨nanos, _⟩, hfraction, date, hdate, h⟩ := h
  have hvalid := Date.valid_of_of? hdate
  have hnanos := lt_of_fraction? hfraction
  simp only [nanosPerSecond] at hnanos h
  split at h
  · cases h
  · next hclock =>
    split at h
    · next hleap =>
      obtain ⟨rfl, -⟩ := Prod.mk.inj (Option.some.inj h)
      refine ⟨hvalid, ?_, ?_, fun _ => ?_⟩
      · show 60 * (60 * hour + minute) + 59 < 86400
        omega
      · show 1000000000 + nanos < 2 * 1000000000
        omega
      · show (60 * (60 * hour + minute) + 59) % 60 = 59
        omega
    · next hleap =>
      obtain ⟨rfl, -⟩ := Prod.mk.inj (Option.some.inj h)
      refine ⟨hvalid, ?_, ?_, fun hlong => ?_⟩
      · show 60 * (60 * hour + minute) + second < 86400
        omega
      · show nanos < 2 * 1000000000
        omega
      · exact absurd (show 1000000000 ≤ nanos from hlong) (by omega)

/-- A whole number of minutes, less than a day either way. -/
structure Offset (offset : Int) : Prop where
  lower : -secondsPerDay < offset
  upper : offset < secondsPerDay
  minutes : offset % 60 = 0

theorem Offset.of_offsetSize? {size : Nat} (h : offsetSize? cs = some (size, rest)) :
    Offset size ∧ Offset (-size) := by
  simp only [offsetSize?, Option.bind_eq_bind, Option.bind_eq_some_iff] at h
  obtain ⟨⟨hours, _⟩, -, ⟨minutes, _⟩, -, h⟩ := h
  split at h
  · cases h
  · next hclock =>
    obtain ⟨rfl, -⟩ := Prod.mk.inj (Option.some.inj h)
    have hday : secondsPerDay = 86400 := rfl
    refine ⟨⟨?_, ?_, ?_⟩, ⟨?_, ?_, ?_⟩⟩
    all_goals omega

theorem Offset.of_signedOffset? {offset : Int} (h : signedOffset? cs = some (offset, rest)) :
    Offset offset := by
  unfold signedOffset? at h
  split at h
  case h_4 => cases h
  all_goals
    obtain ⟨⟨size, left⟩, hsize, hpair⟩ := Option.map_eq_some_iff.mp h
    obtain ⟨rfl, -⟩ := Prod.mk.inj hpair
  · exact (of_offsetSize? hsize).1
  · exact (of_offsetSize? hsize).2
  · exact (of_offsetSize? hsize).2

theorem Offset.of_zone? {offset : Int} (h : zone? cs = some (offset, rest)) : Offset offset := by
  have hzero : Offset 0 := ⟨by decide, by decide, rfl⟩
  unfold zone? at h
  split at h
  case h_4 => cases h
  case h_3 =>
    split at h
    · obtain ⟨rfl, -⟩ := Prod.mk.inj (Option.some.inj h)
      exact hzero
    · exact of_signedOffset? h
  all_goals
    obtain ⟨rfl, -⟩ := Prod.mk.inj (Option.some.inj h)
    exact hzero

/-- Universal time is reached within a day, and the last second of a minute stays one. -/
theorem Valid.of_ofLocal? (hshown : shown.Valid) {offset : Int} (hoffset : Offset offset)
    (h : shown.ofLocal? offset = some i) : i.Valid := by
  obtain ⟨hdate, hsecond, hnano, hleap⟩ := hshown
  obtain ⟨hlower, hupper, hminutes⟩ := hoffset
  have hday : secondsPerDay = 86400 := rfl
  simp only [ofLocal?] at h
  split at h
  · next hearlier =>
    obtain ⟨date, hprevious, rfl⟩ := Option.map_eq_some_iff.mp h
    refine ⟨hdate.of_previous? hprevious, ?_, hnano, fun hlong => ?_⟩
    · show ((shown.second : Int) - offset + secondsPerDay).toNat < secondsPerDay
      omega
    · have hlast := hleap hlong
      show ((shown.second : Int) - offset + secondsPerDay).toNat % 60 = 59
      omega
  split at h
  · next hlater =>
    obtain ⟨date, hnext, rfl⟩ := Option.map_eq_some_iff.mp h
    refine ⟨hdate.of_next? hnext, ?_, hnano, fun hlong => ?_⟩
    · show ((shown.second : Int) - offset - secondsPerDay).toNat < secondsPerDay
      omega
    · have hlast := hleap hlong
      show ((shown.second : Int) - offset - secondsPerDay).toNat % 60 = 59
      omega
  · next hsame =>
    obtain rfl := Option.some.inj h
    refine ⟨hdate, ?_, hnano, fun hlong => ?_⟩
    · show ((shown.second : Int) - offset).toNat < secondsPerDay
      omega
    · have hlast := hleap hlong
      show ((shown.second : Int) - offset).toNat % 60 = 59
      omega

theorem valid_of_ofStampChars? (h : ofStampChars? cs = some i) : i.Valid := by
  simp only [ofStampChars?, Option.bind_eq_bind, Option.bind_eq_some_iff] at h
  obtain ⟨⟨shown, left⟩, hshown, ⟨offset, behind⟩, hzone, h⟩ := h
  split at h
  · exact (valid_of_shown? hshown).of_ofLocal? (.of_zone? hzone) h
  · cases h

theorem valid_of_ofStamp? {text : String} (h : ofStamp? text = some i) : i.Valid :=
  valid_of_ofStampChars? h

end Instant
end Turnstile
