import Turnstile.Json.Printer
import Turnstile.Json.Token

/-!
Strings between quotes: writing and reading them undo each other.

`next?_renderPieces` says that the reader of a quoted text stops at the quote
that the writer has put at its end and has then read the characters of the text,
whatever they are and whatever follows.
-/

namespace Turnstile
namespace Json
namespace Token

theorem stringOnto_unitEscape {n : Nat} (h : n < 0x20) (read : List Piece) (rest : List Char) :
    stringOnto read (unitEscape n ++ rest) = stringOnto (.char (Char.ofNat n) :: read) rest := by
  have hu : ∀ m < 0x20, unit? (hexDigit (m / 0x1000)) (hexDigit (m / 0x100))
      (hexDigit (m / 0x10)) (hexDigit m) = some m := by decide
  have hp : Piece.ofUnit n = .char (Char.ofNat n) := by
    unfold Piece.ofUnit
    rw [if_neg (by omega), if_neg (by omega)]
  simp [unitEscape, stringOnto, hu n h, hp]

/-- The reader takes the writer's form of a character for that character. -/
theorem stringOnto_escapeChar (c : Char) (read : List Piece) (rest : List Char) :
    stringOnto read (escapeChar c ++ rest) = stringOnto (.char c :: read) rest := by
  unfold escapeChar
  split
  · next h => subst h; simp [stringOnto, shortEscape?]
  split
  · next h => subst h; simp [stringOnto, shortEscape?]
  split
  · next h => subst h; simp [stringOnto, shortEscape?]
  split
  · next h => subst h; simp [stringOnto, shortEscape?]
  split
  · next h => subst h; simp [stringOnto, shortEscape?]
  split
  · next h => subst h; simp [stringOnto, shortEscape?]
  split
  · next h => subst h; simp [stringOnto, shortEscape?]
  split
  · next h => rw [stringOnto_unitEscape h, Char.ofNat_toNat]
  · next hq hb _ _ _ _ _ hc =>
    simp only [List.cons_append, List.nil_append]
    rw [stringOnto]
    · simp [hb, hc]
    · exact hq
    · rintro _ _ _ _ _ rfl
      exact absurd rfl hb
    · rintro _ _ rfl
      exact absurd rfl hb

theorem stringOnto_flatMap_escapeChar (cs : List Char) (read : List Piece)
    (rest : List Char) :
    stringOnto read (cs.flatMap escapeChar ++ '"' :: rest) =
      some (read.reverse ++ cs.map .char, rest) := by
  induction cs generalizing read with
  | nil => simp [stringOnto]
  | cons c cs ih =>
    rw [List.flatMap_cons, List.append_assoc, stringOnto_escapeChar, ih]
    simp

/-- A text that has been written between quotes is read back from there. -/
theorem next?_renderPieces (text : String) (rest : List Char) :
    next? (renderPieces (pieces text) ++ rest) = some (.string (pieces text), rest) := by
  have hr : renderPieces (pieces text) ++ rest =
      '"' :: (text.toList.flatMap escapeChar ++ '"' :: rest) := by
    simp [renderPieces, pieces, List.flatMap_map, Piece.render]
  rw [hr]
  simp [next?, stringOnto_flatMap_escapeChar, pieces]

end Token
end Json
end Turnstile
