import Turnstile.Json.Quoted
import Turnstile.Proofs.Text.Decimal

/-!
# Tokens at the front of a text

A token is read off the front of a text whatever stands behind it (`next?_append`).  Strings
and brackets show their own ends.  A number does not, and what stands behind it must not go
on like a number; each part of a number is then read like the number on its own.  The digits
of a natural number are such a number (`number?_digits`).
-/

namespace Turnstile
namespace Json
namespace Token

open Text (digits)

/-! ## Strings -/

/-- A string that has been read to its closing quote is read alike whatever follows it. -/
theorem stringOnto_append {read ps : List Piece} {cs rest : List Char}
    (h : stringOnto read cs = some (ps, rest)) (more : List Char) :
    stringOnto read (cs ++ more) = some (ps, rest ++ more) := by
  fun_induction stringOnto read cs with
  | case1 | case4 | case6 | case7 => cases h
  | case2 read tail =>
    obtain ⟨rfl, rfl⟩ := Prod.mk.inj (Option.some.inj h)
    rfl
  | case3 read a b c d tail unit hunit ih =>
    simp only [List.cons_append, stringOnto, hunit]
    exact ih h
  | case5 read letter tail hne c hc ih =>
    -- the letter is no `u`, which stands for no character by itself
    have hu : letter ≠ 'u' := by
      rintro rfl
      cases hc
    rw [List.cons_append, List.cons_append, stringOnto]
    · simp only [hc]
      exact ih h
    · intro a b c d tail heq
      exact absurd heq hu
  | case8 read c tail hquote hu hletter hc ih =>
    rw [List.cons_append, stringOnto]
    · rw [if_neg hc]
      exact ih h
    · exact hquote
    · rintro _ _ _ _ _ rfl
      simp at hc
    · rintro _ _ rfl
      simp at hc

/-! ## Numbers -/

/-- The character may stand in a number behind a digit. -/
def goesOn (c : Char) : Bool := c.isDigit || c == '.' || c == 'e' || c == 'E'

/-- A number that stands before the text ends there. -/
def Halts (more : List Char) : Prop := ∀ c ∈ more.head?, goesOn c = false

theorem halts_cons {c : Char} (hc : goesOn c = false) (more : List Char) : Halts (c :: more) := by
  rintro d hd
  rw [← Option.some.inj hd]
  exact hc

theorem Halts.isDigit {more : List Char} (h : Halts more) :
    ∀ c ∈ more.head?, c.isDigit = false := by
  intro c hc
  have hgoes := h c hc
  simp only [goesOn, Bool.or_eq_false_iff] at hgoes
  exact hgoes.1.1.1

theorem digits?_eq_some_iff {cs ds rest : List Char} :
    digits? cs = some (ds, rest) ↔
      cs = ds ++ rest ∧ ds ≠ [] ∧ (∀ c ∈ ds, c.isDigit = true) ∧
        ∀ c ∈ rest.head?, c.isDigit = false := by
  constructor
  · intro h
    unfold digits? at h
    split at h
    · cases h
    · next d ds' htake =>
      obtain ⟨rfl, rfl⟩ := Prod.mk.inj (Option.some.inj h)
      refine ⟨?_, List.cons_ne_nil _ _, ?_, ?_⟩
      · rw [← htake, List.takeWhile_append_dropWhile]
      · rw [← htake]
        exact fun c hc => List.all_eq_true.mp List.all_takeWhile c hc
      · intro c hc
        have hfirst := List.head?_dropWhile_not Char.isDigit cs
        rw [show (cs.dropWhile Char.isDigit).head? = some c from hc] at hfirst
        exact hfirst
  · rintro ⟨rfl, hne, hds, hrest⟩
    have hstop : rest.takeWhile Char.isDigit = [] ∧ rest.dropWhile Char.isDigit = rest := by
      cases rest with
      | nil => exact ⟨rfl, rfl⟩
      | cons c rest =>
        have hc : ¬c.isDigit = true := by rw [hrest c rfl]; exact Bool.false_ne_true
        exact ⟨List.takeWhile_cons_of_neg hc, List.dropWhile_cons_of_neg hc⟩
    unfold digits?
    rw [List.takeWhile_append_of_pos hds, List.dropWhile_append_of_pos hds, hstop.1, hstop.2,
      List.append_nil]
    cases ds with
    | nil => exact absurd rfl hne
    | cons d ds => rfl

variable {cs ds rest more : List Char}

theorem digits?_append (hmore : Halts more) (h : digits? cs = some (ds, rest)) :
    digits? (cs ++ more) = some (ds, rest ++ more) := by
  obtain ⟨rfl, hne, hds, hrest⟩ := digits?_eq_some_iff.mp h
  refine digits?_eq_some_iff.mpr ⟨List.append_assoc .., hne, hds, ?_⟩
  cases rest with
  | nil => exact hmore.isDigit
  | cons c rest => exact hrest

theorem whole?_append (hmore : Halts more) (h : whole? cs = some (ds, rest)) :
    whole? (cs ++ more) = some (ds, rest ++ more) := by
  unfold whole? at h
  split at h
  · obtain ⟨rfl, rfl⟩ := Prod.mk.inj (Option.some.inj h)
    rfl
  · next hzero =>
    obtain ⟨c, cs, rfl⟩ : ∃ c cs', cs = c :: cs' := by
      obtain ⟨rfl, hne, -⟩ := digits?_eq_some_iff.mp h
      exact List.exists_cons_of_ne_nil (List.append_ne_nil_of_left_ne_nil hne _)
    rw [List.cons_append, whole?]
    · exact digits?_append hmore h
    · rintro tail heq
      exact hzero cs (by rw [(List.cons.inj heq).1])

theorem fraction?_append (hmore : Halts more) (h : fraction? cs = some (ds, rest)) :
    fraction? (cs ++ more) = some (ds, rest ++ more) := by
  unfold fraction? at h
  split at h
  · obtain ⟨p, hp, hpair⟩ := Option.map_eq_some_iff.mp h
    obtain ⟨rfl, rfl⟩ := Prod.mk.inj hpair
    rw [List.cons_append, fraction?, digits?_append hmore hp]
    rfl
  · next hpoint =>
    obtain ⟨rfl, rfl⟩ := Prod.mk.inj (Option.some.inj h)
    rw [fraction?]
    rintro tail heq
    cases cs with
    | nil =>
      rw [List.nil_append] at heq
      exact absurd (hmore '.' (by rw [heq]; rfl)) (by decide)
    | cons c cs => exact hpoint cs (by rw [(List.cons.inj heq).1])

theorem exponent?_append (hmore : Halts more) (h : exponent? cs = some (ds, rest)) :
    exponent? (cs ++ more) = some (ds, rest ++ more) := by
  unfold exponent? at h
  split at h
  · obtain ⟨rfl, rfl⟩ := Prod.mk.inj (Option.some.inj h)
    cases more with
    | nil => rfl
    | cons c more =>
      have hc := hmore c rfl
      simp only [goesOn, Bool.or_eq_false_iff] at hc
      rw [List.nil_append, exponent?, hc.1.2, hc.2]
      rfl
  · next c tail =>
    split at h
    · next hexp =>
      obtain ⟨p, hp, hpair⟩ := Option.map_eq_some_iff.mp h
      obtain ⟨rfl, rfl⟩ := Prod.mk.inj hpair
      have htail : tail ≠ [] := by
        rintro rfl
        cases hp
      have hsign : exponentSign (tail ++ more) =
          ((exponentSign tail).1, (exponentSign tail).2 ++ more) := by
        obtain ⟨d, tail, rfl⟩ := List.exists_cons_of_ne_nil htail
        by_cases hplus : d = '+'
        · subst hplus
          rfl
        by_cases hminus : d = '-'
        · subst hminus
          rfl
        · simp [exponentSign, hplus, hminus]
      rw [List.cons_append, exponent?, if_pos hexp, hsign, digits?_append hmore hp]
      rfl
    · next hexp =>
      obtain ⟨rfl, rfl⟩ := Prod.mk.inj (Option.some.inj h)
      rw [List.cons_append, exponent?, if_neg hexp]

theorem number?_append {lexeme : List Char} (hmore : Halts more)
    (h : number? cs = some (lexeme, rest)) :
    number? (cs ++ more) = some (lexeme, rest ++ more) := by
  have hcs : cs ≠ [] := by
    rintro rfl
    cases h
  have hsign : sign (cs ++ more) = ((sign cs).1, (sign cs).2 ++ more) := by
    obtain ⟨c, cs, rfl⟩ := List.exists_cons_of_ne_nil hcs
    by_cases hminus : c = '-'
    · subst hminus
      rfl
    · simp [sign, hminus]
  simp only [number?, Option.bind_eq_bind, Option.bind_eq_some_iff, Option.pure_def,
    Option.some.injEq, Prod.mk.injEq] at h
  obtain ⟨⟨w, r₁⟩, hw, ⟨f, r₂⟩, hf, ⟨e, r₃⟩, he, rfl, rfl⟩ := h
  rw [number?, hsign]
  simp only [whole?_append hmore hw, fraction?_append hmore hf, exponent?_append hmore he,
    Option.bind_eq_bind, Option.bind_some, Option.pure_def]

/-- The digits of a natural number are a number, since no zero stands in front of them. -/
theorem number?_digits (n : Nat) : number? (digits n) = some (digits n, []) := by
  by_cases hn : n = 0
  · subst hn
    decide
  obtain ⟨d, ds, hds⟩ := List.exists_cons_of_ne_nil (Nat.toDigits_ne_nil (b := 10) (n := n))
  replace hds : digits n = d :: ds := hds
  have hdigit : ∀ c ∈ digits n, c.isDigit = true := fun c => Text.isDigit_of_mem_digits
  have hwhole : digits? (d :: ds) = some (d :: ds, []) :=
    digits?_eq_some_iff.mpr ⟨(List.append_nil _).symm, List.cons_ne_nil _ _, hds ▸ hdigit,
      fun _ hc => absurd hc (Option.not_mem_none _)⟩
  have hzero : d ≠ '0' := by
    rintro rfl
    exact Text.digits_ne_zero_cons hn ds hds
  have hminus : d ≠ '-' := by
    rintro rfl
    exact absurd (hdigit '-' (hds ▸ List.mem_cons_self)) (by decide)
  rw [hds]
  simp [number?, sign, whole?, fraction?, exponent?, hwhole, hzero, hminus]

/-! ## Tokens -/

theorem next?_of_number? {lexeme : List Char} (h : number? cs = some (lexeme, rest)) :
    next? cs = some (.number lexeme, rest) := by
  unfold next?
  split
  case h_11 => rw [h]; rfl
  all_goals cases h

/-- What stands behind a token leaves it as it is, unless the token is a number and what
stands there goes on with it. -/
theorem next?_append {t : Token} (h : next? cs = some (t, rest))
    (hmore : ∀ lexeme, t = .number lexeme → Halts more) :
    next? (cs ++ more) = some (t, rest ++ more) := by
  unfold next? at h
  split at h
  case h_10 tail =>
    obtain ⟨p, hp, hpair⟩ := Option.map_eq_some_iff.mp h
    obtain ⟨rfl, rfl⟩ := Prod.mk.inj hpair
    rw [List.cons_append, next?, stringOnto_append hp more]
    rfl
  case h_11 =>
    obtain ⟨p, hp, hpair⟩ := Option.map_eq_some_iff.mp h
    obtain ⟨rfl, rfl⟩ := Prod.mk.inj hpair
    exact next?_of_number? (number?_append (hmore _ rfl) hp)
  all_goals
    obtain ⟨rfl, rfl⟩ := Prod.mk.inj (Option.some.inj h)
    rfl

end Token
end Json
end Turnstile
