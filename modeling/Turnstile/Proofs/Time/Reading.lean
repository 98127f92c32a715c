import Turnstile.Proofs.Text.Decimal
import Turnstile.Time.Stamp

/-!
Stamps are read back.

Each part of a stamp is read up to where it was written, whatever follows as long as
it does not go on in the same way.  `ofStampChars?_stampChars` puts the parts
together: an instant of an existing day is read back from its stamp, leap seconds
and years of any length included.
-/

namespace Turnstile

namespace Instant

open Text

/-- A number is no white space that could be trimmed. -/
theorem trimBlanks_padded_append (width n : Nat) (rest : List Char) :
    trimBlanks (padded width n ++ rest) = padded width n ++ rest := by
  cases hp : padded width n with
  | nil => exact absurd hp (padded_ne_nil width n)
  | cons c cs =>
    have hd : c.isDigit = true := isDigit_of_mem_padded (by rw [hp]; exact List.mem_cons_self ..)
    simp [trimBlanks, isBlank_eq_false_of_isDigit hd]

/-- A row of digits is read as a whole when it is as long as it may be or something
else follows it. -/
theorem numeral?_append {most : Nat} {ds rest : List Char} (hne : ds ≠ [])
    (hd : ∀ c ∈ ds, c.isDigit = true) (hle : ds.length ≤ most)
    (hstop : ds.length = most ∨ ∀ c ∈ rest.head?, c.isDigit = false) :
    numeral? most (ds ++ rest) = some (digitsValue ds, rest) := by
  have htake : ((ds ++ rest).take most).takeWhile Char.isDigit = ds := by
    rw [List.take_append, List.take_of_length_le hle, List.takeWhile_append_of_pos hd]
    rcases hstop with he | hs
    · simp [he]
    · cases rest with
      | nil => simp
      | cons c cs =>
        have hc : c.isDigit = false := hs c rfl
        cases hk : most - ds.length <;> simp [hc]
  unfold numeral?
  rw [htake]
  cases ds with
  | nil => exact absurd rfl hne
  | cons d ds => simp

theorem pair?_padded_append {n : Nat} (h : n < 100) (rest : List Char) :
    pair? (padded 2 n ++ rest) = some (n, rest) := by
  have hlen : (padded 2 n).length = 2 := length_padded (by decide) (by omega)
  rw [pair?, trimBlanks_padded_append, numeral?_append (padded_ne_nil 2 n)
    (fun c hc => isDigit_of_mem_padded hc) (by omega) (.inl hlen), digitsValue_padded]

theorem mark?_cons {c : Char} (h : isBlank c = false) (rest : List Char) :
    mark? c (c :: rest) = some rest := by
  simp [mark?, trimBlanks, h]

theorem year?_yearText_append (year : Int) (rest : List Char)
    (hstop : ∀ c ∈ rest.head?, c.isDigit = false) :
    year? (yearText year ++ rest) = some (year, rest) := by
  have hsigned : ∀ n, numeral? (padded 4 n ++ rest).length (padded 4 n ++ rest) =
      some (n, rest) := by
    intro n
    rw [numeral?_append (padded_ne_nil 4 n) (fun c hc => isDigit_of_mem_padded hc)
      (by simp) (.inr hstop), digitsValue_padded]
  unfold yearText
  split
  · next h =>
    have hlen : (padded 4 year.toNat).length = 4 := length_padded (by decide) (by omega)
    have hnum : numeral? 4 (padded 4 year.toNat ++ rest) = some (year.toNat, rest) := by
      rw [numeral?_append (padded_ne_nil 4 _) (fun c hc => isDigit_of_mem_padded hc) (by omega)
        (.inl hlen), digitsValue_padded]
    unfold year?
    rw [trimBlanks_padded_append]
    cases hp : padded 4 year.toNat with
    | nil => exact absurd hp (padded_ne_nil _ _)
    | cons c cs =>
      have hc : c.isDigit = true := isDigit_of_mem_padded (by rw [hp]; exact List.mem_cons_self ..)
      rw [hp] at hnum
      split
      · next heq => injection heq with he _; subst he; simp at hc
      · next heq => injection heq with he _; subst he; simp at hc
      · rw [hnum]
        have : ((year.toNat : Nat) : Int) = year := by omega
        simp [this]
  · next h =>
    split
    · next hneg =>
      have hb : isBlank '-' = false := by decide
      have hy : -((year.natAbs : Nat) : Int) = year := by omega
      simp only [year?, List.cons_append, trimBlanks, List.dropWhile_cons, hb]
      simp only [Bool.false_eq_true, if_false, hsigned, Option.map_some, hy]
    · next hpos =>
      have hb : isBlank '+' = false := by decide
      have hy : ((year.natAbs : Nat) : Int) = year := by omega
      simp only [year?, List.cons_append, trimBlanks, List.dropWhile_cons, hb]
      simp only [Bool.false_eq_true, if_false, hsigned, Option.map_some, hy]

theorem fraction?_point {ds rest : List Char} (hne : ds ≠ [])
    (hd : ∀ c ∈ ds, c.isDigit = true) (hle : ds.length ≤ 9)
    (hstop : ∀ c ∈ rest.head?, c.isDigit = false) :
    fraction? ('.' :: (ds ++ rest)) = some (digitsValue ds * 10 ^ (9 - ds.length), rest) := by
  have hrest : rest.takeWhile Char.isDigit = [] ∧ rest.dropWhile Char.isDigit = rest := by
    cases rest with
    | nil => simp
    | cons c cs =>
      have hc : c.isDigit = false := hstop c rfl
      simp [hc]
  have ht : (ds ++ rest).takeWhile Char.isDigit = ds := by
    rw [List.takeWhile_append_of_pos hd, hrest.1, List.append_nil]
  have hr : (ds ++ rest).dropWhile Char.isDigit = rest := by
    rw [List.dropWhile_append_of_pos hd, hrest.2]
  unfold fraction?
  simp only [ht, hr]
  cases ds with
  | nil => exact absurd rfl hne
  | cons d ds =>
    simp only
    rw [List.take_of_length_le hle, digitsValue_rightpad]

theorem fraction?_fractionText_append {nanos : Nat} (h : nanos < nanosPerSecond)
    (rest : List Char) (hstop : ∀ c ∈ rest.head?, c.isDigit = false)
    (hdot : rest.head? ≠ some '.') :
    fraction? (fractionText nanos ++ rest) = some (nanos, rest) := by
  simp only [nanosPerSecond] at h
  have hgroup : ∀ w n, 0 < w → w ≤ 9 → n < 10 ^ w →
      fraction? ('.' :: (padded w n ++ rest)) = some (n * 10 ^ (9 - w), rest) := by
    intro w n hw hw9 hn
    have hlen := length_padded hw hn
    rw [fraction?_point (padded_ne_nil w n) (fun c hc => isDigit_of_mem_padded hc) (by omega)
      hstop, digitsValue_padded, hlen]
  unfold fractionText
  split
  · next h0 =>
    subst h0
    unfold fraction?
    split
    · next heq => simp at heq; simp [heq] at hdot
    · simp
  split
  · next h6 =>
    rw [List.cons_append, hgroup 3 _ (by decide) (by decide) (by omega)]
    have : nanos / 1000000 * 10 ^ (9 - 3) = nanos := by omega
    rw [this]
  split
  · next h3 =>
    rw [List.cons_append, hgroup 6 _ (by decide) (by decide) (by omega)]
    have : nanos / 1000 * 10 ^ (9 - 6) = nanos := by omega
    rw [this]
  · rw [List.cons_append, hgroup 9 _ (by decide) (by decide) (by omega)]
    simp

theorem separator?_cons (rest : List Char) : separator? ('T' :: rest) = some rest := rfl

theorem zone?_cons (rest : List Char) : zone? ('Z' :: rest) = some (0, rest) := rfl

theorem shown?_append {i : Instant} (h : i.Valid) (rest : List Char)
    (hstop : ∀ c ∈ rest.head?, c.isDigit = false) (hdot : rest.head? ≠ some '.') :
    shown? (dateText i.date ++ 'T' :: (i.clockText ++ fractionText (i.nanosecond % nanosPerSecond)
      ++ rest)) = some (i, rest) := by
  obtain ⟨hdate, hsec, hnano, hleap⟩ := h
  have hvalid := hdate
  obtain ⟨-, hm, hd⟩ := hdate
  have hdd := Date.monthLength_le i.date.year i.date.month
  simp only [secondsPerDay] at hsec
  simp only [nanosPerSecond] at hnano hleap
  have hdash : isBlank '-' = false := by decide
  have hcolon : isBlank ':' = false := by decide
  have hshown : i.shownSecond < 100 := by
    unfold shownSecond
    split <;> omega
  have hfrac : i.nanosecond % nanosPerSecond < nanosPerSecond := Nat.mod_lt _ (by decide)
  unfold shown? dateText clockText
  simp only [List.append_assoc, List.cons_append, Option.bind_eq_bind]
  rw [year?_yearText_append _ _ (by simp)]
  simp only [Option.bind_some, mark?_cons hdash, mark?_cons hcolon, separator?_cons,
    pair?_padded_append (show i.date.month < 100 by omega),
    pair?_padded_append (show i.date.day < 100 by omega),
    pair?_padded_append (show i.second / 3600 < 100 by omega),
    pair?_padded_append (show i.second / 60 % 60 < 100 by omega),
    pair?_padded_append hshown, fraction?_fractionText_append hfrac rest hstop hdot,
    Date.of?_of_valid hvalid]
  have hs60 : i.shownSecond < 61 := by
    unfold shownSecond isLeap
    split <;> omega
  rw [if_neg (by omega)]
  obtain ⟨date, second, nanosecond⟩ := i
  simp only [shownSecond, isLeap, nanosPerSecond] at *
  by_cases hl : 1000000000 ≤ nanosecond
  · have h59 := hleap hl
    simp only [hl, decide_true, if_true, h59]
    simp
    omega
  · simp only [hl, decide_false, Bool.false_eq_true, if_false]
    rw [if_neg (by omega)]
    simp
    omega

/-- Every instant is read back from its stamp. -/
theorem ofStampChars?_stampChars {i : Instant} (h : i.Valid) :
    ofStampChars? i.stampChars = some i := by
  have hsec := h.2.1
  unfold ofStampChars? stampChars
  rw [shown?_append h ['Z'] (by simp) (by simp)]
  have hz : trimBlanks ['Z'] = ['Z'] := rfl
  simp only [Option.bind_eq_bind, Option.bind_some, hz, zone?_cons]
  rw [ofLocal?_zero hsec]
  rfl

theorem ofStamp?_stamp {i : Instant} (h : i.Valid) : ofStamp? i.stamp = some i := by
  rw [ofStamp?, stamp, String.toList_ofList, ofStampChars?_stampChars h]

end Instant
end Turnstile
