/-!
White space in the sense of the Unicode property, which is wider than the four
blanks of a JSON text and wider than the blanks that `Char.isWhitespace` knows.
-/

namespace Turnstile
namespace Text

/-- The code points of the Unicode property White_Space, as closed intervals. -/
def blankIntervals : List (Nat × Nat) :=
  [(0x09, 0x0D), (0x20, 0x20), (0x85, 0x85), (0xA0, 0xA0), (0x1680, 0x1680),
    (0x2000, 0x200A), (0x2028, 0x2029), (0x202F, 0x202F), (0x205F, 0x205F),
    (0x3000, 0x3000)]

def isBlank (c : Char) : Bool :=
  blankIntervals.any fun i => i.1 ≤ c.toNat && c.toNat ≤ i.2

def trimBlanks (cs : List Char) : List Char := cs.dropWhile isBlank

/-- Every blank that the standard library knows is white space. -/
theorem isBlank_of_isWhitespace {c : Char} (h : c.isWhitespace = true) : isBlank c = true := by
  simp only [Char.isWhitespace, Bool.or_eq_true, decide_eq_true_eq] at h
  rcases h with ((h | h) | h) | h <;> subst h <;> decide

theorem isBlank_eq_false_of_isDigit {c : Char} (h : c.isDigit = true) : isBlank c = false := by
  simp only [Char.isDigit, Bool.and_eq_true, decide_eq_true_eq] at h
  obtain ⟨h₁, h₂⟩ := h
  have hl : 48 ≤ c.toNat := by simpa using UInt32.le_iff_toNat_le.mp h₁
  have hr : c.toNat ≤ 57 := by simpa using UInt32.le_iff_toNat_le.mp h₂
  simp [isBlank, blankIntervals]
  omega

end Text
end Turnstile
