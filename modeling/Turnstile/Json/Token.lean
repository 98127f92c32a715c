import Turnstile.Json.Basic

/-!
The tokens of a JSON text.

`tokens?` cuts a text into tokens and drops the blanks between them.  A token is
read off the front of the text as long as it can be, so two tokens that need no
blank between them are told apart and a number ends where the next character
cannot continue it.  The text is refused when some part of it is no token.
-/

namespace Turnstile
namespace Json

inductive Token where
  | openBrace
  | closeBrace
  | openBracket
  | closeBracket
  | colon
  | comma
  | null
  | bool (value : Bool)
  | number (lexeme : List Char)
  | string (pieces : List Piece)
  deriving DecidableEq, Repr

namespace Token

/-- The four blanks that may stand between tokens. -/
def isSpace (c : Char) : Bool := c == ' ' || c == '\t' || c == '\n' || c == '\r'

/-! ## Strings -/

def hexDigit? (c : Char) : Option Nat :=
  if '0' ≤ c ∧ c ≤ '9' then some (c.toNat - '0'.toNat)
  else if 'a' ≤ c ∧ c ≤ 'f' then some (c.toNat - 'a'.toNat + 10)
  else if 'A' ≤ c ∧ c ≤ 'F' then some (c.toNat - 'A'.toNat + 10)
  else none

/-- The 16-bit unit that four hexadecimal digits name. -/
def unit? (a b c d : Char) : Option Nat := do
  let a ← hexDigit? a
  let b ← hexDigit? b
  let c ← hexDigit? c
  let d ← hexDigit? d
  return 0x1000 * a + 0x100 * b + 0x10 * c + d

/-- The character that a backslash and one letter stand for. -/
def shortEscape? : Char → Option Char
  | '"' => some '"'
  | '\\' => some '\\'
  | '/' => some '/'
  | 'b' => some '\x08'
  | 'f' => some '\x0c'
  | 'n' => some '\n'
  | 'r' => some '\r'
  | 't' => some '\t'
  | _ => none

/-- Reads a string up to its closing quote.  The pieces read so far stand in
`read`, the last of them first.  Control characters must be escaped. -/
def stringOnto (read : List Piece) : List Char → Option (List Piece × List Char)
  | [] => none
  | '"' :: rest => some (read.reverse, rest)
  | '\\' :: 'u' :: a :: b :: c :: d :: rest =>
    match unit? a b c d with
    | some unit => stringOnto (Piece.ofUnit unit :: read) rest
    | none => none
  | '\\' :: letter :: rest =>
    match shortEscape? letter with
    | some c => stringOnto (.char c :: read) rest
    | none => none
  | c :: rest =>
    if c.toNat < 0x20 || c == '\\' then none else stringOnto (.char c :: read) rest

theorem length_lt_of_stringOnto {read ps : List Piece} {cs rest : List Char}
    (h : stringOnto read cs = some (ps, rest)) : rest.length < cs.length := by
  fun_induction stringOnto read cs with
  | case1 => simp at h
  | case2 => simp_all
  | case3 read a b c d tail unit hu ih => have := ih h; simp; omega
  | case4 => simp at h
  | case5 read letter tail hne c hc ih => have := ih h; simp; omega
  | case6 => simp at h
  | case7 => simp at h
  | case8 read c tail hq hu hl hc ih => have := ih h; simp; omega

/-! ## Numbers

A number is an optional minus sign, a whole part without leading zeros, an
optional fraction and an optional exponent. -/

/-- A row of at least one digit, and what follows it. -/
def digits? (cs : List Char) : Option (List Char × List Char) :=
  match cs.takeWhile Char.isDigit with
  | [] => none
  | d :: ds => some (d :: ds, cs.dropWhile Char.isDigit)

def sign (cs : List Char) : List Char × List Char :=
  match cs with
  | '-' :: rest => (['-'], rest)
  | _ => ([], cs)

def whole? : List Char → Option (List Char × List Char)
  | '0' :: rest => some (['0'], rest)
  | cs => digits? cs

def fraction? : List Char → Option (List Char × List Char)
  | '.' :: rest => (digits? rest).map fun p => ('.' :: p.1, p.2)
  | cs => some ([], cs)

def exponentSign : List Char → List Char × List Char
  | '+' :: rest => (['+'], rest)
  | '-' :: rest => (['-'], rest)
  | cs => ([], cs)

def exponent? : List Char → Option (List Char × List Char)
  | [] => some ([], [])
  | c :: rest =>
    if c == 'e' || c == 'E' then
      (digits? (exponentSign rest).2).map fun p => (c :: ((exponentSign rest).1 ++ p.1), p.2)
    else some ([], c :: rest)

/-- The lexeme of the number at the front of the text, and what follows it. -/
def number? (cs : List Char) : Option (List Char × List Char) := do
  let (minus, cs) := sign cs
  let (whole, cs) ← whole? cs
  let (fraction, cs) ← fraction? cs
  let (exponent, cs) ← exponent? cs
  return (minus ++ whole ++ fraction ++ exponent, cs)

theorem length_lt_of_digits? {cs ds rest : List Char} (h : digits? cs = some (ds, rest)) :
    rest.length < cs.length := by
  unfold digits? at h
  split at h
  · simp at h
  · next d ds' hd =>
    obtain ⟨-, rfl⟩ := Prod.mk.injEq .. ▸ Option.some.injEq .. ▸ h
    have happ : (cs.takeWhile Char.isDigit ++ cs.dropWhile Char.isDigit).length = cs.length := by
      rw [List.takeWhile_append_dropWhile]
    rw [List.length_append, hd, List.length_cons] at happ
    omega

theorem length_sign_le (cs : List Char) : (sign cs).2.length ≤ cs.length := by
  unfold sign
  split <;> simp

theorem length_lt_of_whole? {cs ds rest : List Char} (h : whole? cs = some (ds, rest)) :
    rest.length < cs.length := by
  unfold whole? at h
  split at h
  · simp_all
  · exact length_lt_of_digits? h

theorem length_le_of_fraction? {cs ds rest : List Char} (h : fraction? cs = some (ds, rest)) :
    rest.length ≤ cs.length := by
  unfold fraction? at h
  split at h
  · obtain ⟨⟨ds', rest'⟩, hp, he⟩ := Option.map_eq_some_iff.mp h
    obtain ⟨-, rfl⟩ := Prod.mk.injEq .. ▸ he
    have := length_lt_of_digits? hp
    simp only [List.length_cons]
    omega
  · simp_all

theorem length_exponentSign_le (cs : List Char) :
    (exponentSign cs).2.length ≤ cs.length := by
  unfold exponentSign
  split <;> simp

theorem length_le_of_exponent? {cs ds rest : List Char} (h : exponent? cs = some (ds, rest)) :
    rest.length ≤ cs.length := by
  unfold exponent? at h
  split at h
  · simp_all
  · next c tail =>
    split at h
    · obtain ⟨⟨ds', rest'⟩, hp, he⟩ := Option.map_eq_some_iff.mp h
      obtain ⟨-, rfl⟩ := Prod.mk.injEq .. ▸ he
      have hd := length_lt_of_digits? hp
      have hs := length_exponentSign_le tail
      simp only [List.length_cons]
      omega
    · simp_all

theorem length_lt_of_number? {cs lexeme rest : List Char}
    (h : number? cs = some (lexeme, rest)) : rest.length < cs.length := by
  simp only [number?, Option.bind_eq_bind, Option.bind_eq_some_iff, Option.pure_def,
    Option.some.injEq, Prod.mk.injEq] at h
  obtain ⟨⟨w, r₁⟩, hw, ⟨f, r₂⟩, hf, ⟨e, r₃⟩, he, -, rfl⟩ := h
  have h₀ := length_sign_le cs
  have h₁ := length_lt_of_whole? hw
  have h₂ := length_le_of_fraction? hf
  have h₃ := length_le_of_exponent? he
  simp only at *
  omega

/-! ## Texts -/

/-- The token at the front of the text, and what follows it. -/
def next? : List Char → Option (Token × List Char)
  | '{' :: rest => some (.openBrace, rest)
  | '}' :: rest => some (.closeBrace, rest)
  | '[' :: rest => some (.openBracket, rest)
  | ']' :: rest => some (.closeBracket, rest)
  | ':' :: rest => some (.colon, rest)
  | ',' :: rest => some (.comma, rest)
  | 'n' :: 'u' :: 'l' :: 'l' :: rest => some (.null, rest)
  | 't' :: 'r' :: 'u' :: 'e' :: rest => some (.bool true, rest)
  | 'f' :: 'a' :: 'l' :: 's' :: 'e' :: rest => some (.bool false, rest)
  | '"' :: rest => (stringOnto [] rest).map fun p => (.string p.1, p.2)
  | cs => (number? cs).map fun p => (.number p.1, p.2)

theorem length_lt_of_next? {cs rest : List Char} {t : Token}
    (h : next? cs = some (t, rest)) : rest.length < cs.length := by
  unfold next? at h
  split at h
  case h_10 tail =>
    obtain ⟨⟨ps, rest'⟩, hp, he⟩ := Option.map_eq_some_iff.mp h
    obtain ⟨-, rfl⟩ := Prod.mk.injEq .. ▸ he
    have := length_lt_of_stringOnto hp
    simp only [List.length_cons]
    omega
  case h_11 =>
    obtain ⟨⟨lexeme, rest'⟩, hp, he⟩ := Option.map_eq_some_iff.mp h
    obtain ⟨-, rfl⟩ := Prod.mk.injEq .. ▸ he
    exact length_lt_of_number? hp
  all_goals
    obtain ⟨-, rfl⟩ := Prod.mk.injEq .. ▸ Option.some.injEq .. ▸ h
    simp only [List.length_cons]
    omega

/-- The tokens of a text after the tokens of `read`, which come last first. -/
def tokensOnto (read : List Token) : List Char → Option (List Token)
  | [] => some read.reverse
  | c :: rest =>
    if isSpace c then tokensOnto read rest
    else
      match _h : next? (c :: rest) with
      | none => none
      | some (t, rest') => tokensOnto (t :: read) rest'
termination_by cs => cs.length
decreasing_by
  · simp
  · exact length_lt_of_next? _h

def tokens? (cs : List Char) : Option (List Token) := tokensOnto [] cs

end Token
end Json
end Turnstile
