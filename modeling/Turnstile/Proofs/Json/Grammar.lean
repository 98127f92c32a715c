import Mathlib.Data.List.Basic
import Turnstile.Proofs.Json.Lexeme

/-!
# The grammar of tokens

A string may be written in many ways, since each character may be escaped, and between tokens
there may be blanks.  `Token.Written` says how a token may be written and `Token.Laid` how a row
of tokens may be.  The reader takes a text for a row of tokens only if the text is laid out like
that (`laid_of_tokens?`), and it takes every such text for the row if no number stands before a
token that could go on with it (`Laid.tokensOnto_eq`).
-/

namespace Turnstile
namespace Json
namespace Token

/-! ## Strings -/

/-- The forms in which a piece may stand between the quotes of a string. -/
inductive PieceWritten : Piece → List Char → Prop
  | itself {c : Char} (hquote : c ≠ '"') (hbackslash : c ≠ '\\') (hcontrol : 0x20 ≤ c.toNat) :
      PieceWritten (.char c) [c]
  | letter {l c : Char} (hl : shortEscape? l = some c) : PieceWritten (.char c) ['\\', l]
  | unit {a b c d : Char} {n : Nat} (hn : unit? a b c d = some n) :
      PieceWritten (.ofUnit n) ['\\', 'u', a, b, c, d]

/-- The pieces, one behind the other. -/
inductive PiecesWritten : List Piece → List Char → Prop
  | nil : PiecesWritten [] []
  | cons {p : Piece} {ps : List Piece} {cs rest : List Char} (hp : PieceWritten p cs)
      (hps : PiecesWritten ps rest) : PiecesWritten (p :: ps) (cs ++ rest)

theorem stringOnto_append_of_pieceWritten {p : Piece} {cs : List Char} (hp : PieceWritten p cs)
    (read : List Piece) (rest : List Char) :
    stringOnto read (cs ++ rest) = stringOnto (p :: read) rest := by
  cases hp with
  | itself hquote hbackslash hcontrol =>
    rw [List.cons_append, List.nil_append, stringOnto]
    · rw [if_neg (by simpa using ⟨hcontrol, hbackslash⟩)]
    · exact hquote
    · rintro _ _ _ _ _ rfl
      exact absurd rfl hbackslash
    · rintro _ _ rfl
      exact absurd rfl hbackslash
  | @letter l c hl =>
    have hu : l ≠ 'u' := by
      rintro rfl
      cases hl
    rw [List.cons_append, List.cons_append, List.nil_append, stringOnto]
    · simp only [hl]
    · intro a b c d tail heq
      exact absurd heq hu
  | unit hn => simp only [List.cons_append, List.nil_append, stringOnto, hn]

theorem stringOnto_append_of_piecesWritten {ps : List Piece} {body : List Char}
    (hps : PiecesWritten ps body) (read : List Piece) (rest : List Char) :
    stringOnto read (body ++ '"' :: rest) = some (read.reverse ++ ps, rest) := by
  induction hps generalizing read with
  | nil => rw [List.nil_append, stringOnto, List.append_nil]
  | cons hp hps ih =>
    rw [List.append_assoc, stringOnto_append_of_pieceWritten hp, ih, List.reverse_cons,
      List.append_assoc, List.singleton_append]

theorem exists_piecesWritten_of_stringOnto {read ps : List Piece} {cs rest : List Char}
    (h : stringOnto read cs = some (ps, rest)) :
    ∃ new body, ps = read.reverse ++ new ∧ PiecesWritten new body ∧ cs = body ++ '"' :: rest := by
  have hcons : ∀ {p : Piece} {front tail : List Char} {read : List Piece},
      PieceWritten p front →
      (∃ new body, ps = (p :: read).reverse ++ new ∧ PiecesWritten new body ∧
        tail = body ++ '"' :: rest) →
      ∃ new body, ps = read.reverse ++ new ∧ PiecesWritten new body ∧
        front ++ tail = body ++ '"' :: rest := by
    rintro p front tail read hp ⟨new, body, hnew, hbody, rfl⟩
    refine ⟨p :: new, front ++ body, ?_, .cons hp hbody, (List.append_assoc ..).symm⟩
    rw [hnew, List.reverse_cons, List.append_assoc, List.singleton_append]
  fun_induction stringOnto read cs with
  | case1 | case4 | case6 | case7 => cases h
  | case2 read tail =>
    obtain ⟨rfl, rfl⟩ := Prod.mk.inj (Option.some.inj h)
    exact ⟨[], [], (List.append_nil _).symm, .nil, rfl⟩
  | case3 read a b c d tail unit hunit ih => exact hcons (.unit hunit) (ih h)
  | case5 read letter tail hne c hc ih => exact hcons (.letter hc) (ih h)
  | case8 read c tail hquote hu hletter hc ih =>
    obtain ⟨hcontrol, hbackslash⟩ : ¬ c.toNat < 0x20 ∧ c ≠ '\\' := by simpa using hc
    exact hcons (.itself hquote hbackslash (Nat.le_of_not_lt hcontrol)) (ih h)

/-! ## Numbers -/

/-- A row of at least one digit. -/
structure IsDigits (ds : List Char) : Prop where
  nonempty : ds ≠ []
  digits : ∀ c ∈ ds, c.isDigit = true

/-- No zero stands in front of other digits. -/
inductive IsWhole : List Char → Prop
  | zero : IsWhole ['0']
  | digits {d : Char} {ds : List Char} (hd : d ≠ '0') (hds : IsDigits (d :: ds)) :
      IsWhole (d :: ds)

inductive IsFraction : List Char → Prop
  | none : IsFraction []
  | digits {ds : List Char} (hds : IsDigits ds) : IsFraction ('.' :: ds)

inductive IsExponent : List Char → Prop
  | none : IsExponent []
  | digits {e : Char} {sign ds : List Char} (he : e = 'e' ∨ e = 'E')
      (hsign : sign ∈ [[], ['+'], ['-']]) (hds : IsDigits ds) : IsExponent (e :: (sign ++ ds))

/-- The lexemes of numbers. -/
inductive IsNumber : List Char → Prop
  | parts {minus whole fraction exponent : List Char} (hminus : minus ∈ [[], ['-']])
      (hwhole : IsWhole whole) (hfraction : IsFraction fraction)
      (hexponent : IsExponent exponent) : IsNumber (minus ++ whole ++ fraction ++ exponent)

variable {cs ds rest : List Char}

theorem IsDigits.digits?_append (hds : IsDigits ds) (hrest : ∀ c ∈ rest.head?, c.isDigit = false) :
    digits? (ds ++ rest) = some (ds, rest) :=
  digits?_eq_some_iff.mpr ⟨rfl, hds.nonempty, hds.digits, hrest⟩

theorem isDigits_of_digits? (h : digits? cs = some (ds, rest)) : IsDigits ds ∧ cs = ds ++ rest := by
  obtain ⟨hcs, hne, hdigits, -⟩ := digits?_eq_some_iff.mp h
  exact ⟨⟨hne, hdigits⟩, hcs⟩

theorem IsWhole.whole?_append {whole : List Char} (hwhole : IsWhole whole)
    (hrest : ∀ c ∈ rest.head?, c.isDigit = false) :
    whole? (whole ++ rest) = some (whole, rest) := by
  cases hwhole with
  | zero => rfl
  | digits hd hds =>
    rw [List.cons_append, whole?]
    · exact hds.digits?_append hrest
    · rintro tail heq
      exact hd (List.cons.inj heq).1

theorem isWhole_of_whole? {whole : List Char} (h : whole? cs = some (whole, rest)) :
    IsWhole whole ∧ cs = whole ++ rest := by
  unfold whole? at h
  split at h
  · obtain ⟨rfl, rfl⟩ := Prod.mk.inj (Option.some.inj h)
    exact ⟨.zero, rfl⟩
  · next hzero =>
    obtain ⟨hds, rfl⟩ := isDigits_of_digits? h
    obtain ⟨d, ds, rfl⟩ := List.exists_cons_of_ne_nil hds.nonempty
    refine ⟨.digits ?_ hds, rfl⟩
    rintro rfl
    exact hzero _ rfl

theorem IsFraction.fraction?_append {fraction : List Char} (hfraction : IsFraction fraction)
    (hrest : ∀ c ∈ rest.head?, c.isDigit = false ∧ c ≠ '.') :
    fraction? (fraction ++ rest) = some (fraction, rest) := by
  cases hfraction with
  | none =>
    rw [List.nil_append, fraction?]
    rintro tail rfl
    exact (hrest '.' rfl).2 rfl
  | digits hds =>
    rw [List.cons_append, fraction?, hds.digits?_append fun c hc => (hrest c hc).1]
    rfl

theorem isFraction_of_fraction? {fraction : List Char} (h : fraction? cs = some (fraction, rest)) :
    IsFraction fraction ∧ cs = fraction ++ rest := by
  unfold fraction? at h
  split at h
  · obtain ⟨p, hp, hpair⟩ := Option.map_eq_some_iff.mp h
    obtain ⟨rfl, rfl⟩ := Prod.mk.inj hpair
    obtain ⟨hds, rfl⟩ := isDigits_of_digits? hp
    exact ⟨.digits hds, rfl⟩
  · obtain ⟨rfl, rfl⟩ := Prod.mk.inj (Option.some.inj h)
    exact ⟨.none, rfl⟩

theorem exponentSign_append {sign : List Char} (hsign : sign ∈ [[], ['+'], ['-']])
    (hds : IsDigits ds) : exponentSign (sign ++ ds) = (sign, ds) := by
  simp only [List.mem_cons, List.not_mem_nil, or_false] at hsign
  rcases hsign with rfl | rfl | rfl
  · -- a digit is no sign
    obtain ⟨d, ds, rfl⟩ := List.exists_cons_of_ne_nil hds.nonempty
    have hd := hds.digits d List.mem_cons_self
    rw [List.nil_append, exponentSign]
    · rintro tail heq
      rw [(List.cons.inj heq).1] at hd
      exact absurd hd (by decide)
    · rintro tail heq
      rw [(List.cons.inj heq).1] at hd
      exact absurd hd (by decide)
  · rfl
  · rfl

theorem exponentSign_eq (cs : List Char) :
    (exponentSign cs).1 ∈ [[], ['+'], ['-']] ∧ cs = (exponentSign cs).1 ++ (exponentSign cs).2 := by
  unfold exponentSign
  split <;> simp

theorem IsExponent.exponent?_eq {exponent : List Char} (hexponent : IsExponent exponent) :
    exponent? exponent = some (exponent, []) := by
  cases hexponent with
  | none => rfl
  | digits he hsign hds =>
    have hend : ∀ c ∈ ([] : List Char).head?, c.isDigit = false :=
      fun _ hc => absurd hc (Option.not_mem_none _)
    have hread := hds.digits?_append hend
    rw [List.append_nil] at hread
    rw [exponent?, if_pos (by simpa using he), exponentSign_append hsign hds, hread]
    rfl

theorem isExponent_of_exponent? {exponent : List Char} (h : exponent? cs = some (exponent, rest)) :
    IsExponent exponent ∧ cs = exponent ++ rest := by
  unfold exponent? at h
  split at h
  · obtain ⟨rfl, rfl⟩ := Prod.mk.inj (Option.some.inj h)
    exact ⟨.none, rfl⟩
  · next e tail =>
    split at h
    · next he =>
      obtain ⟨p, hp, hpair⟩ := Option.map_eq_some_iff.mp h
      obtain ⟨rfl, rfl⟩ := Prod.mk.inj hpair
      obtain ⟨hsign, htail⟩ := exponentSign_eq tail
      obtain ⟨hds, hp⟩ := isDigits_of_digits? hp
      refine ⟨.digits (by simpa using he) hsign hds, ?_⟩
      rw [List.cons_append, List.append_assoc, ← hp, ← htail]
    · obtain ⟨rfl, rfl⟩ := Prod.mk.inj (Option.some.inj h)
      exact ⟨.none, rfl⟩

theorem IsWhole.exists_eq_cons {whole : List Char} (h : IsWhole whole) :
    ∃ d ds, whole = d :: ds ∧ d.isDigit = true := by
  cases h with
  | zero => exact ⟨_, _, rfl, by decide⟩
  | digits _ hds => exact ⟨_, _, rfl, hds.digits _ List.mem_cons_self⟩

theorem sign_append {minus whole : List Char} (hminus : minus ∈ [[], ['-']])
    (hwhole : IsWhole whole) (more : List Char) :
    sign (minus ++ (whole ++ more)) = (minus, whole ++ more) := by
  rcases List.mem_pair.mp hminus with rfl | rfl
  · obtain ⟨d, ds, rfl, hd⟩ := hwhole.exists_eq_cons
    rw [List.nil_append, List.cons_append, sign]
    rintro tail heq
    rw [(List.cons.inj heq).1] at hd
    exact absurd hd (by decide)
  · rfl

theorem sign_eq (cs : List Char) :
    (sign cs).1 ∈ [[], ['-']] ∧ cs = (sign cs).1 ++ (sign cs).2 := by
  unfold sign
  split <;> simp

theorem IsExponent.head? {exponent : List Char} (h : IsExponent exponent) :
    ∀ c ∈ exponent.head?, c.isDigit = false ∧ c ≠ '.' := by
  rintro c hc
  cases h with
  | none => cases hc
  | digits he _ _ =>
    rcases he with rfl | rfl
    all_goals
      obtain rfl := Option.some.inj hc
      decide

theorem IsNumber.number?_eq {lexeme : List Char} (h : IsNumber lexeme) :
    number? lexeme = some (lexeme, []) := by
  obtain ⟨hminus, hwhole, hfraction, hexponent⟩ := h
  rename_i minus whole fraction exponent
  have hpart : ∀ c ∈ (fraction ++ exponent).head?, c.isDigit = false := by
    rintro c hc
    cases hfraction with
    | none => exact (hexponent.head? c hc).1
    | digits _ =>
      obtain rfl := Option.some.inj hc
      decide
  rw [List.append_assoc, List.append_assoc, number?, sign_append hminus hwhole]
  simp only [hwhole.whole?_append hpart, hfraction.fraction?_append hexponent.head?,
    hexponent.exponent?_eq, Option.bind_eq_bind, Option.bind_some, Option.pure_def,
    List.append_assoc]

theorem isNumber_of_number? {lexeme : List Char} (h : number? cs = some (lexeme, rest)) :
    IsNumber lexeme ∧ cs = lexeme ++ rest := by
  simp only [number?, Option.bind_eq_bind, Option.bind_eq_some_iff, Option.pure_def,
    Option.some.injEq, Prod.mk.injEq] at h
  obtain ⟨⟨whole, r₁⟩, hw, ⟨fraction, r₂⟩, hf, ⟨exponent, r₃⟩, he, rfl, rfl⟩ := h
  obtain ⟨hminus, hcs⟩ := sign_eq cs
  obtain ⟨hwhole, hsign⟩ := isWhole_of_whole? hw
  obtain ⟨hfraction, rfl⟩ := isFraction_of_fraction? hf
  obtain ⟨hexponent, rfl⟩ := isExponent_of_exponent? he
  refine ⟨.parts hminus hwhole hfraction hexponent, ?_⟩
  rw [hsign] at hcs
  simpa only [List.append_assoc] using hcs

/-! ## Tokens -/

/-- The forms of a token.  Only strings have more than one. -/
inductive Written : Token → List Char → Prop
  | openBrace : Written .openBrace ['{']
  | closeBrace : Written .closeBrace ['}']
  | openBracket : Written .openBracket ['[']
  | closeBracket : Written .closeBracket [']']
  | colon : Written .colon [':']
  | comma : Written .comma [',']
  | null : Written .null ['n', 'u', 'l', 'l']
  | true : Written (.bool true) ['t', 'r', 'u', 'e']
  | false : Written (.bool false) ['f', 'a', 'l', 's', 'e']
  | number {lexeme : List Char} (h : IsNumber lexeme) : Written (.number lexeme) lexeme
  | string {ps : List Piece} {body : List Char} (h : PiecesWritten ps body) :
      Written (.string ps) ('"' :: (body ++ ['"']))

theorem Written.next?_eq {t : Token} (h : t.Written cs) : next? cs = some (t, []) := by
  cases h with
  | number h => exact next?_of_number? h.number?_eq
  | string h =>
    rw [next?, stringOnto_append_of_piecesWritten h, List.reverse_nil, List.nil_append]
    rfl
  | _ => rfl

theorem exists_written_of_next? {t : Token} (h : next? cs = some (t, rest)) :
    ∃ front, t.Written front ∧ cs = front ++ rest := by
  unfold next? at h
  split at h
  case h_10 tail =>
    obtain ⟨p, hp, hpair⟩ := Option.map_eq_some_iff.mp h
    obtain ⟨rfl, rfl⟩ := Prod.mk.inj hpair
    obtain ⟨new, body, hnew, hbody, rfl⟩ := exists_piecesWritten_of_stringOnto hp
    rw [List.reverse_nil, List.nil_append] at hnew
    exact ⟨_, .string (hnew ▸ hbody), by simp⟩
  case h_11 =>
    obtain ⟨p, hp, hpair⟩ := Option.map_eq_some_iff.mp h
    obtain ⟨rfl, rfl⟩ := Prod.mk.inj hpair
    obtain ⟨hlexeme, hcs⟩ := isNumber_of_number? hp
    exact ⟨_, .number hlexeme, hcs⟩
  all_goals
    obtain ⟨rfl, rfl⟩ := Prod.mk.inj (Option.some.inj h)
    exact ⟨_, by constructor, rfl⟩

/-- A token is read from its forms and from nothing else. -/
theorem next?_eq_some_nil_iff {t : Token} : next? cs = some (t, []) ↔ t.Written cs := by
  refine ⟨fun h => ?_, Written.next?_eq⟩
  obtain ⟨front, hfront, rfl⟩ := exists_written_of_next? h
  rwa [List.append_nil]

/-! ## Rows of tokens -/

/-- The text spells the tokens, each in one of its forms, with blanks before, between and
behind them. -/
inductive Laid : List Token → List Char → Prop
  | nil {blanks : List Char} (hblanks : ∀ c ∈ blanks, isSpace c = true) : Laid [] blanks
  | cons {blanks front rest : List Char} {t : Token} {ts : List Token}
      (hblanks : ∀ c ∈ blanks, isSpace c = true) (ht : t.Written front) (hrest : Laid ts rest) :
      Laid (t :: ts) (blanks ++ (front ++ rest))

theorem Laid.blank_cons {c : Char} {ts : List Token} (hc : isSpace c = true) (h : Laid ts cs) :
    Laid ts (c :: cs) := by
  cases h with
  | nil hblanks => exact .nil (List.forall_mem_cons.mpr ⟨hc, hblanks⟩)
  | cons hblanks ht hrest => exact .cons (List.forall_mem_cons.mpr ⟨hc, hblanks⟩) ht hrest

/-- The tokens that are read from a text are those that it spells. -/
theorem exists_laid_of_tokensOnto {read us : List Token} (h : tokensOnto read cs = some us) :
    ∃ new, us = read.reverse ++ new ∧ Laid new cs := by
  fun_induction tokensOnto read cs with
  | case1 read =>
    obtain rfl := Option.some.inj h
    exact ⟨[], (List.append_nil _).symm, .nil fun _ hc => absurd hc List.not_mem_nil⟩
  | case2 read c rest hspace ih =>
    obtain ⟨new, hus, hnew⟩ := ih h
    exact ⟨new, hus, hnew.blank_cons hspace⟩
  | case3 => cases h
  | case4 read c rest hspace t rest' hnext ih =>
    obtain ⟨new, hus, hnew⟩ := ih h
    obtain ⟨front, ht, hcs⟩ := exists_written_of_next? hnext
    have hnone : ∀ c ∈ ([] : List Char), isSpace c = true := fun _ hc => absurd hc List.not_mem_nil
    refine ⟨t :: new, ?_, ?_⟩
    · rw [hus, List.reverse_cons, List.append_assoc, List.singleton_append]
    · rw [hcs]
      exact .cons hnone ht hnew

end Token
end Json
end Turnstile
