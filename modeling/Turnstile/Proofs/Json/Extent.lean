import Turnstile.Proofs.Json.Reading

/-!
# Where the text of a value ends

A value is read from the whole of a text or not at all.  When tokens have been read for a
value, no value is read once others follow them (`value?_append_eq_none`), and so a row of
tokens that spells a value spells none when it is cut short.  Texts that are cut short are
brought down to that: what is left of the tokens of a text is the beginning of the row, since
a token that is cut in two is none (`next?_eq_none_of_cut`), even where the cut goes through
an escape.
-/

namespace Turnstile
namespace Json

/-! ## Rows of tokens -/

theorem append_eq_none {more : List Token} (hmore : more ≠ []) :
    (∀ frames ts, (value? frames ts).isSome → value? frames (ts ++ more) = none) ∧
      ∀ v frames ts, (after? v frames ts).isSome → after? v frames (ts ++ more) = none := by
  apply value?.mutual_induct
  case case1 | case2 | case3 | case4 | case5 | case7 | case8 | case11 | case12 | case13 | case14 =>
    -- the reader takes the same tokens off the front and goes on as before
    intros
    simp only [List.cons_append, value?, after?] at *
    rename_i ih h
    exact ih h
  case case6 =>
    -- an array that has been opened has a first item, so what follows cannot close it
    intro frames rest hopen ih h
    rw [value?.eq_6 _ _ hopen] at h
    cases rest with
    | nil => cases h
    | cons t rest =>
      rw [List.cons_append, List.cons_append, value?]
      · exact ih h
      · intro tail heq
        exact hopen rest (by rw [(List.cons.inj heq).1])
  case case9 =>
    intro ts frames h₁ h₂ h₃ h₄ h₅ h₆ h₇ h₈ h
    rw [value?] at h
    · cases h
    all_goals assumption
  case case10 =>
    intro v h
    obtain ⟨t, more, rfl⟩ := List.exists_cons_of_ne_nil hmore
    rfl
  case case15 =>
    intro ts v frames h₁ h₂ h₃ h₄ h₅ h
    rw [after?] at h
    · cases h
    all_goals assumption

/-- Tokens that spell a value spell none together with others behind them. -/
theorem value?_append_eq_none {frames : List Frame} {ts more : List Token} {v : Json}
    (h : value? frames ts = some v) (hmore : more ≠ []) : value? frames (ts ++ more) = none :=
  (append_eq_none hmore).1 frames ts (Option.isSome_of_eq_some h)

/-! ## Texts that go on -/

namespace Token

theorem tokensOnto_flatMap_render_append {ts : List Token} (hts : ∀ t ∈ ts, t.ShowsEnd)
    (read : List Token) (rest : List Char) :
    tokensOnto read (ts.flatMap render ++ rest) = tokensOnto (ts.reverse ++ read) rest := by
  induction ts generalizing read with
  | nil => rfl
  | cons t ts ih =>
    have ht := hts t List.mem_cons_self
    rw [List.flatMap_cons, List.append_assoc, tokensOnto_render_append ht.spelt ht.halts,
      ih fun u hu => hts u (List.mem_cons_of_mem _ hu), List.reverse_cons, List.append_assoc]
    rfl

end Token

/-- Behind the text of a value nothing may stand but blanks. -/
theorem parse?_toText_append_eq_none {v : Json} (hv : ∀ t ∈ v.tokens, t.ShowsEnd) {rest : String}
    (hrest : ∃ c ∈ rest.toList, Token.isSpace c = false) : parse? (v.toText ++ rest) = none := by
  rw [parse?, Token.tokens?, String.toList_append, toList_toText,
    Token.tokensOnto_flatMap_render_append hv, List.append_nil]
  cases htokens : Token.tokensOnto v.tokens.reverse rest.toList with
  | none => rfl
  | some us =>
    obtain ⟨new, rfl, hlaid⟩ := Token.exists_laid_of_tokensOnto htokens
    have hnew : new ≠ [] := by
      rintro rfl
      obtain ⟨c, hc, hspace⟩ := hrest
      cases hlaid with
      | nil hblanks =>
        rw [hblanks c hc] at hspace
        cases hspace
    have hvalue := value?_tokens v [] []
    rw [List.append_nil, after?] at hvalue
    rw [List.reverse_reverse, Option.bind_some]
    exact value?_append_eq_none hvalue hnew

/-! ## Texts that are cut short -/

namespace Token

theorem length_lt_of_render_eq_append {t : Token} {cs more : List Char} (h : t.render = cs ++ more)
    (hmore : more ≠ []) : cs.length < t.render.length := by
  have hpos := List.length_pos_iff.mpr hmore
  rw [h, List.length_append]
  omega

/-- The tokens that are always spelt alike. -/
def fixed : List Token :=
  [.openBrace, .closeBrace, .openBracket, .closeBracket, .colon, .comma, .null, .bool true,
    .bool false]

theorem next?_take_fixed :
    ∀ t ∈ fixed, ∀ k < t.render.length, 0 < k → next? (t.render.take k) = none := by decide

/-- The beginning of a token is none. -/
theorem next?_eq_none_of_cut {t : Token} (ht : t.ShowsEnd) {cs more : List Char}
    (h : t.render = cs ++ more) (hcs : cs ≠ []) (hmore : more ≠ []) : next? cs = none := by
  match t with
  | .openBrace | .closeBrace | .openBracket | .closeBracket | .colon | .comma | .null
  | .bool true | .bool false =>
    have hcut := next?_take_fixed _ (by decide) _ (length_lt_of_render_eq_append h hmore)
      (List.length_pos_iff.mpr hcs)
    rwa [h, List.take_left] at hcut
  | .number _ => exact ht.elim
  | .string ps =>
    obtain ⟨text, rfl⟩ := ht
    obtain ⟨c, cs, rfl⟩ := List.exists_cons_of_ne_nil hcs
    obtain ⟨rfl, -⟩ := List.cons.inj h
    have hwhole := next?_renderPieces text []
    rw [List.append_nil, show renderPieces (pieces text) = '"' :: (cs ++ more) from h] at hwhole
    show (stringOnto [] cs).map (fun p => (Token.string p.1, p.2)) = none
    rw [Option.map_eq_none_iff]
    cases hread : stringOnto [] cs with
    | none => rfl
    | some p =>
      -- the string would end before the cut, and then also in the whole text
      have hlonger : next? ('"' :: (cs ++ more)) = some (.string p.1, p.2 ++ more) := by
        show (stringOnto [] (cs ++ more)).map (fun p => (Token.string p.1, p.2)) = _
        rw [stringOnto_append hread more]
        rfl
      rw [hlonger] at hwhole
      have hrest : p.2 ++ more = [] := (Prod.mk.inj (Option.some.inj hwhole)).2
      exact absurd (List.append_eq_nil_iff.mp hrest).2 hmore

theorem tokensOnto_eq_none_of_next? {read : List Token} {c : Char} {cs : List Char}
    (hspace : isSpace c = false) (hnext : next? (c :: cs) = none) :
    tokensOnto read (c :: cs) = none := by
  rw [tokensOnto, hspace]
  simp only [Bool.false_eq_true, if_false]
  split
  · rfl
  · next h =>
    rw [hnext] at h
    cases h

/-- What is left of the tokens of a text that is cut short is the beginning of the row. -/
theorem exists_left_of_cut {ts read us : List Token} (hts : ∀ t ∈ ts, t.ShowsEnd)
    {cs more : List Char} (hcut : ts.flatMap render = cs ++ more) (hmore : more ≠ [])
    (h : tokensOnto read cs = some us) :
    ∃ new left, us = read.reverse ++ new ∧ ts = new ++ left ∧ left ≠ [] := by
  induction ts generalizing read cs with
  | nil =>
    rw [List.flatMap_nil] at hcut
    exact absurd (List.append_eq_nil_iff.mp hcut.symm).2 hmore
  | cons t ts ih =>
    have ht := hts t List.mem_cons_self
    have hwhere : (∃ cs', cs = t.render ++ cs' ∧ ts.flatMap render = cs' ++ more) ∨
        ∃ more', t.render = cs ++ more' ∧ more' ≠ [] := by
      rw [List.flatMap_cons] at hcut
      rcases List.append_eq_append_iff.mp hcut with ⟨cs', hcs, hrest⟩ | ⟨more', hrender, hrest⟩
      · exact .inl ⟨cs', hcs, hrest⟩
      · by_cases hwhole : more' = []
        · subst hwhole
          rw [List.append_nil] at hrender
          exact .inl ⟨[], by rw [hrender, List.append_nil], hrest.symm⟩
        · exact .inr ⟨more', hrender, hwhole⟩
    rcases hwhere with ⟨cs', rfl, hrest⟩ | ⟨more', hrender, hmore'⟩
    · rw [tokensOnto_render_append ht.spelt ht.halts] at h
      obtain ⟨new, left, hus, hnew, hleft⟩ :=
        ih (fun u hu => hts u (List.mem_cons_of_mem _ hu)) hrest h
      refine ⟨t :: new, left, ?_, ?_, hleft⟩
      · rw [hus, List.reverse_cons, List.append_assoc, List.singleton_append]
      · rw [hnew, List.cons_append]
    · cases cs with
      | nil =>
        rw [tokensOnto] at h
        exact ⟨[], t :: ts, by rw [← Option.some.inj h, List.append_nil], rfl, List.cons_ne_nil _ _⟩
      | cons c cs =>
        have hnext := next?_eq_none_of_cut ht hrender (List.cons_ne_nil c cs) hmore'
        rw [tokensOnto_eq_none_of_next? (ht.spelt.isSpace_eq_false hrender) hnext] at h
        cases h

end Token

/-- The text of a value spells no value when it is cut short. -/
theorem parse?_eq_none_of_cut {v : Json} (hv : ∀ t ∈ v.tokens, t.ShowsEnd) {text : String}
    (hcut : text.toList <+: v.toText.toList) (hne : text ≠ v.toText) : parse? text = none := by
  obtain ⟨more, hmore⟩ := hcut
  have hmissing : more ≠ [] := by
    rintro rfl
    rw [List.append_nil, String.toList_inj] at hmore
    exact hne hmore
  rw [toList_toText] at hmore
  rw [parse?, Token.tokens?]
  cases htokens : Token.tokensOnto [] text.toList with
  | none => rfl
  | some us =>
    obtain ⟨new, left, hus, hall, hleft⟩ :=
      Token.exists_left_of_cut hv hmore.symm hmissing htokens
    rw [List.reverse_nil, List.nil_append] at hus
    subst hus
    rw [Option.bind_some]
    cases hread : value? [] us with
    | none => rfl
    | some w =>
      have hvalue := value?_tokens v [] []
      rw [List.append_nil, after?, hall, value?_append_eq_none hread hleft] at hvalue
      cases hvalue

end Json
end Turnstile
