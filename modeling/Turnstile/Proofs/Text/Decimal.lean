import Mathlib.Algebra.Group.Nat.Defs
import Turnstile.Text.Decimal

/-!
# Rows of decimal digits

How wide the row of a number is, how large the value of a row can be, and that no number but
zero is written with a zero in front.
-/

namespace Turnstile
namespace Text

/-- A number that fits its width has exactly that width. -/
theorem length_padded {width n : Nat} (hw : 0 < width) (h : n < 10 ^ width) :
    (padded width n).length = width := by
  have hle : (digits n).length ≤ width := (Nat.length_toDigits_le_iff (by decide) hw).mpr h
  simp only [padded, List.length_append, List.length_replicate]
  omega

theorem digitsValue_rightpad (width : Nat) (ds : List Char) :
    digitsValue (ds.rightpad width '0') = digitsValue ds * 10 ^ (width - ds.length) := by
  rw [List.rightpad, digitsValue, Nat.ofDigitChars_append, Nat.ofDigitChars_replicate_zero,
    Nat.mul_comm]
  rfl

theorem toNat_sub_le_of_isDigit {c : Char} (h : c.isDigit = true) :
    c.toNat - '0'.toNat ≤ 9 := by
  simp only [Char.isDigit, Bool.and_eq_true, decide_eq_true_eq] at h
  have hle : c.toNat ≤ 57 := by simpa using UInt32.le_iff_toNat_le.mp h.2
  have hzero : '0'.toNat = 48 := by decide
  omega

theorem digitsValue_lt {ds : List Char} (hds : ∀ c ∈ ds, c.isDigit = true) :
    digitsValue ds < 10 ^ ds.length := by
  induction ds with
  | nil => decide
  | cons d ds ih =>
    have hd := toNat_sub_le_of_isDigit (hds d List.mem_cons_self)
    have hrest := ih fun c hc => hds c (List.mem_cons_of_mem _ hc)
    have hvalue : digitsValue (d :: ds) =
        10 ^ ds.length * (d.toNat - '0'.toNat) + digitsValue ds := by
      rw [digitsValue, Nat.ofDigitChars_cons, Nat.ofDigitChars_eq_ofDigitChars_zero, Nat.mul_zero,
        Nat.zero_add]
      rfl
    have hfirst := Nat.mul_le_mul_left (10 ^ ds.length) hd
    rw [hvalue, List.length_cons, Nat.pow_succ]
    omega

/-- Only zero is written with a zero in front. -/
theorem digits_ne_zero_cons {n : Nat} (hn : n ≠ 0) (ds : List Char) : digits n ≠ '0' :: ds := by
  intro h
  have hvalue : digitsValue ds = n := by
    rw [← digitsValue_digits n, h]
    exact (digitsValue_zeros_append 1 ds).symm
  -- the digits behind the zero would do for the number, and they are fewer
  have hlt : n < 10 ^ ds.length := by
    rw [← hvalue]
    exact digitsValue_lt fun c hc => isDigit_of_mem_digits (h ▸ List.mem_cons_of_mem _ hc)
  have hpos : 0 < ds.length := by
    refine List.length_pos_iff.mpr ?_
    rintro rfl
    exact hn hvalue.symm
  have hle : (digits n).length ≤ ds.length := (Nat.length_toDigits_le_iff (by decide) hpos).mpr hlt
  rw [h, List.length_cons] at hle
  omega

end Text
end Turnstile
