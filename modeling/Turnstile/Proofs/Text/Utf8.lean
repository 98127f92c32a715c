import Mathlib.Algebra.Group.Nat.Defs
import Turnstile.Text.Utf8

/-!
# Rows of bytes that spell a text

Not every row of bytes is the encoding of a text.  `SpellsText` says which rows are, byte by
byte: how long a character is shows in its first byte, its other bytes carry a mark of their
own, and the ranges of the first two bytes leave out what could be written shorter, halves of
surrogate pairs, and numbers that are too large for a character.  These are just the rows that
are read as texts (`ofUtf8?_eq_none_iff`), and a row is read only as the text that it encodes
(`ofUtf8?_eq_some_iff`).

A number in front of a row of bytes is likewise read back from its bytes, and its bytes are
found again from the number.
-/

namespace Turnstile
namespace Text

/-- A byte that goes on with a character. -/
def Continues (b : UInt8) : Prop := 0x80 ≤ b.toNat ∧ b.toNat ≤ 0xBF

/-- The rows of bytes that spell one character. -/
inductive SpellsChar : List UInt8 → Prop
  | one {a : UInt8} (ha : a.toNat ≤ 0x7F) : SpellsChar [a]
  | two {a b : UInt8} (ha : 0xC2 ≤ a.toNat ∧ a.toNat ≤ 0xDF) (hb : Continues b) :
      SpellsChar [a, b]
  | three {a b c : UInt8} (ha : 0xE0 ≤ a.toNat ∧ a.toNat ≤ 0xEF) (hb : Continues b)
      (hshort : a.toNat = 0xE0 → 0xA0 ≤ b.toNat) (hhalf : a.toNat = 0xED → b.toNat ≤ 0x9F)
      (hc : Continues c) : SpellsChar [a, b, c]
  | four {a b c d : UInt8} (ha : 0xF0 ≤ a.toNat ∧ a.toNat ≤ 0xF4) (hb : Continues b)
      (hshort : a.toNat = 0xF0 → 0x90 ≤ b.toNat) (hlarge : a.toNat = 0xF4 → b.toNat ≤ 0x8F)
      (hc : Continues c) (hd : Continues d) : SpellsChar [a, b, c, d]

/-- The rows of bytes that spell a text. -/
inductive SpellsText : List UInt8 → Prop
  | nil : SpellsText []
  | cons {char rest : List UInt8} (hchar : SpellsChar char) (hrest : SpellsText rest) :
      SpellsText (char ++ rest)

/-! ## Characters -/

theorem spellsChar_utf8EncodeChar (c : Char) : SpellsChar (String.utf8EncodeChar c) := by
  have hvalid : c.val.toNat < 0xD800 ∨ 0xDFFF < c.val.toNat ∧ c.val.toNat < 0x110000 := c.valid
  unfold String.utf8EncodeChar
  generalize c.val.toNat = n at hvalid
  simp only
  split
  · exact .one (by simp; omega)
  split
  · refine .two ?_ ?_ <;> simp [Continues] <;> omega
  split
  · refine .three ?_ ?_ ?_ ?_ ?_ <;> simp [Continues] <;> omega
  · refine .four ?_ ?_ ?_ ?_ ?_ ?_ <;> simp [Continues] <;> omega

theorem exists_char_of_valid {n : Nat} (h : n < 0xD800 ∨ 0xDFFF < n ∧ n < 0x110000) :
    ∃ c : Char, c.val.toNat = n :=
  ⟨Char.ofNatAux n h, rfl⟩

/-- The ranges of the bytes leave just the numbers of characters, each in the row of its
length, so that a row of bytes can be encoded again from the number that it spells. -/
theorem SpellsChar.exists_char {bytes : List UInt8} (h : SpellsChar bytes) :
    ∃ c, String.utf8EncodeChar c = bytes := by
  cases h with
  | @one a ha =>
    obtain ⟨char, hchar⟩ := exists_char_of_valid (n := a.toNat) (by omega)
    refine ⟨char, ?_⟩
    unfold String.utf8EncodeChar
    rw [hchar, if_pos ha, UInt8.ofNat_toNat]
  | @two a b ha hb =>
    obtain ⟨hb₁, hb₂⟩ := hb
    obtain ⟨char, hchar⟩ :=
      exists_char_of_valid (n := (a.toNat - 0xC0) * 64 + (b.toNat - 0x80)) (by omega)
    refine ⟨char, ?_⟩
    unfold String.utf8EncodeChar
    rw [hchar, if_neg (by omega), if_pos (by omega)]
    simp only [List.cons.injEq, ← UInt8.toNat_inj, UInt8.toNat_ofNat', and_true]
    omega
  | @three a b c ha hb hshort hhalf hc =>
    obtain ⟨hb₁, hb₂⟩ := hb
    obtain ⟨hc₁, hc₂⟩ := hc
    obtain ⟨char, hchar⟩ := exists_char_of_valid
      (n := (a.toNat - 0xE0) * 4096 + (b.toNat - 0x80) * 64 + (c.toNat - 0x80)) (by omega)
    refine ⟨char, ?_⟩
    unfold String.utf8EncodeChar
    rw [hchar, if_neg (by omega), if_neg (by omega), if_pos (by omega)]
    simp only [List.cons.injEq, ← UInt8.toNat_inj, UInt8.toNat_ofNat', and_true]
    omega
  | @four a b c d ha hb hshort hlarge hc hd =>
    obtain ⟨hb₁, hb₂⟩ := hb
    obtain ⟨hc₁, hc₂⟩ := hc
    obtain ⟨hd₁, hd₂⟩ := hd
    obtain ⟨char, hchar⟩ := exists_char_of_valid
      (n := (a.toNat - 0xF0) * 262144 + (b.toNat - 0x80) * 4096 + (c.toNat - 0x80) * 64 +
        (d.toNat - 0x80)) (by omega)
    refine ⟨char, ?_⟩
    unfold String.utf8EncodeChar
    rw [hchar, if_neg (by omega), if_neg (by omega), if_neg (by omega)]
    simp only [List.cons.injEq, ← UInt8.toNat_inj, UInt8.toNat_ofNat', and_true]
    omega

/-! ## Texts -/

theorem utf8_eq_flatMap (text : String) :
    utf8 text = text.toList.flatMap String.utf8EncodeChar := by
  show text.toByteArray.data.toList = _
  rw [← String.utf8Encode_toList]
  simp [List.utf8Encode]

theorem spellsText_utf8 (text : String) : SpellsText (utf8 text) := by
  rw [utf8_eq_flatMap]
  induction text.toList with
  | nil => exact .nil
  | cons c cs ih => exact .cons (spellsChar_utf8EncodeChar c) ih

theorem SpellsText.exists_text {bytes : List UInt8} (h : SpellsText bytes) :
    ∃ text, utf8 text = bytes := by
  induction h with
  | nil => exact ⟨"", rfl⟩
  | cons hchar hrest ih =>
    obtain ⟨c, rfl⟩ := hchar.exists_char
    obtain ⟨text, rfl⟩ := ih
    refine ⟨String.ofList (c :: text.toList), ?_⟩
    rw [utf8_eq_flatMap, utf8_eq_flatMap, String.toList_ofList, List.flatMap_cons]

theorem ofUtf8?_eq_some_iff {bytes : List UInt8} {text : String} :
    ofUtf8? bytes = some text ↔ utf8 text = bytes := by
  constructor
  · intro h
    unfold ofUtf8? String.fromUTF8? at h
    split at h
    · obtain rfl := Option.some.inj h
      rfl
    · cases h
  · rintro rfl
    exact ofUtf8?_utf8 text

theorem ofUtf8?_eq_none_iff {bytes : List UInt8} : ofUtf8? bytes = none ↔ ¬ SpellsText bytes := by
  rw [Option.eq_none_iff_forall_ne_some]
  constructor
  · intro hnone hspells
    obtain ⟨text, htext⟩ := hspells.exists_text
    exact hnone text (ofUtf8?_eq_some_iff.mpr htext)
  · intro hspells text htext
    rw [ofUtf8?_eq_some_iff] at htext
    exact hspells (htext ▸ spellsText_utf8 text)

/-- A slash spelt with two bytes where one would do, half of a surrogate pair, and a
character that is cut short are no texts. -/
example : ofUtf8? [0xC0, 0xAF] = none ∧ ofUtf8? [0xED, 0xA0, 0x80] = none ∧
    ofUtf8? [0xE2, 0x82] = none := by decide

/-! ## Numbers -/

theorem ofLittleEndian_littleEndian {count n : Nat} (h : n < 256 ^ count) :
    ofLittleEndian (littleEndian count n) = n := by
  induction count generalizing n with
  | zero => simp at h; simp [littleEndian, ofLittleEndian, h]
  | succ count ih =>
    have hdiv : n / 256 < 256 ^ count := by
      rw [Nat.pow_succ] at h
      exact Nat.div_lt_of_lt_mul (by omega)
    simp only [littleEndian, ofLittleEndian, ih hdiv, UInt8.toNat_ofNat']
    omega

theorem littleEndian_ofLittleEndian (bytes : List UInt8) :
    littleEndian bytes.length (ofLittleEndian bytes) = bytes := by
  induction bytes with
  | nil => rfl
  | cons b rest ih =>
    have hb := b.toNat_lt
    have hfirst : UInt8.ofNat (b.toNat + 256 * ofLittleEndian rest) = b := by
      rw [← UInt8.toNat_inj, UInt8.toNat_ofNat']
      omega
    have hrest : (b.toNat + 256 * ofLittleEndian rest) / 256 = ofLittleEndian rest := by omega
    rw [List.length_cons, littleEndian, ofLittleEndian, hfirst, hrest, ih]

theorem ofLittleEndian_lt (bytes : List UInt8) : ofLittleEndian bytes < 256 ^ bytes.length := by
  induction bytes with
  | nil => exact Nat.one_pos
  | cons b rest ih =>
    have hb := b.toNat_lt
    rw [ofLittleEndian, List.length_cons, Nat.pow_succ]
    omega

end Text
end Turnstile
