import Turnstile.Proofs.Json.Reading

/-!
# The texts of a value

A value has many texts, since its tokens may be written in several forms and blanks may stand
around them.  It is read from all of them and from no other text (`parse?_eq_some_iff`).  Behind
this stands that the reader of values, whatever arrays and objects are still open, takes just
the tokens of one value for each value that it puts together: what it has read so far and what
is left make up the tokens of the value that it gives in the end
(`tokens_eq_framesTokens_append`).
-/

namespace Turnstile
namespace Json

/-! ## Rows of tokens -/

/-- The items in front of another one in an array, each with its comma. -/
def leadingItems (items : List Json) : List Token := items.flatMap fun v => v.tokens ++ [.comma]

/-- The members in front of another one in an object, each with its comma. -/
def leadingMembers (members : List (List Piece × Json)) : List Token :=
  members.flatMap fun m => .string m.1 :: .colon :: (m.2.tokens ++ [.comma])

theorem tokens_append_itemTokens (first : Json) (items : List Json) (v : Json) :
    first.tokens ++ itemTokens (items ++ [v]) = leadingItems (first :: items) ++ v.tokens := by
  induction items generalizing first with
  | nil => simp [itemTokens, leadingItems]
  | cons item items ih =>
    rw [List.cons_append, itemTokens, ih, leadingItems, leadingItems, List.flatMap_cons]
    simp

theorem tokens_array_append (items : List Json) (v : Json) :
    (array (items ++ [v])).tokens =
      .openBracket :: (leadingItems items ++ v.tokens ++ [.closeBracket]) := by
  cases items with
  | nil => simp [tokens, itemTokens, leadingItems]
  | cons item items => rw [List.cons_append, tokens, tokens_append_itemTokens]

theorem tokens_append_memberTokens (key : List Piece) (first : Json)
    (members : List (List Piece × Json)) (m : List Piece × Json) :
    .string key :: .colon :: (first.tokens ++ memberTokens (members ++ [m])) =
      leadingMembers ((key, first) :: members) ++ (.string m.1 :: .colon :: m.2.tokens) := by
  induction members generalizing key first with
  | nil => simp [memberTokens, leadingMembers]
  | cons member members ih =>
    rw [List.cons_append, memberTokens, ih, leadingMembers, leadingMembers, List.flatMap_cons]
    simp

theorem tokens_object_append (members : List (List Piece × Json)) (m : List Piece × Json) :
    (object (members ++ [m])).tokens =
      .openBrace :: (leadingMembers members ++ (.string m.1 :: .colon :: m.2.tokens) ++
        [.closeBrace]) := by
  cases members with
  | nil => simp [tokens, memberTokens, leadingMembers]
  | cons member members =>
    rw [List.cons_append, tokens, ← tokens_append_memberTokens]
    simp

/-- What has been read of an array or object that is still open. -/
def Frame.tokens : Frame → List Token
  | .array items => .openBracket :: leadingItems items.reverse
  | .object members key => .openBrace :: (leadingMembers members.reverse ++ [.string key, .colon])

/-- What has been read inside the given frames, the outermost of which was opened first. -/
def framesTokens (frames : List Frame) : List Token := frames.reverse.flatMap Frame.tokens

theorem framesTokens_cons (frame : Frame) (frames : List Frame) :
    framesTokens (frame :: frames) = framesTokens frames ++ frame.tokens := by
  simp [framesTokens]

/-- Reading loses no token and adds none. -/
theorem tokens_eq_framesTokens_append :
    (∀ frames ts, ∀ w, value? frames ts = some w → w.tokens = framesTokens frames ++ ts) ∧
      ∀ v frames ts, ∀ w, after? v frames ts = some w →
        w.tokens = framesTokens frames ++ (v.tokens ++ ts) := by
  apply value?.mutual_induct
  case case1 | case2 | case3 | case4 | case5 | case7 =>
    -- the token, or the empty array or object, is the value
    intros
    simp only [value?] at *
    rename_i ih w h
    exact ih w h
  case case6 =>
    intro frames rest hopen ih w h
    rw [value?.eq_6 _ _ hopen] at h
    rw [ih w h, framesTokens_cons, List.append_assoc]
    rfl
  case case8 =>
    intro frames key rest ih w h
    rw [value?] at h
    rw [ih w h, framesTokens_cons, List.append_assoc]
    rfl
  case case9 =>
    intro ts frames h₁ h₂ h₃ h₄ h₅ h₆ h₇ h₈ w h
    rw [value?] at h
    · cases h
    all_goals assumption
  case case10 =>
    intro v w h
    obtain rfl := Option.some.inj h
    exact (List.append_nil _).symm
  case case11 =>
    intro v items outer rest ih w h
    rw [after?] at h
    rw [ih w h]
    simp [framesTokens_cons, Frame.tokens, leadingItems]
  case case12 =>
    intro v items outer rest ih w h
    rw [after?] at h
    rw [ih w h, List.reverse_cons, tokens_array_append]
    simp [framesTokens_cons, Frame.tokens]
  case case13 =>
    intro v members key outer next rest ih w h
    rw [after?] at h
    rw [ih w h]
    simp [framesTokens_cons, Frame.tokens, leadingMembers]
  case case14 =>
    intro v members key outer rest ih w h
    rw [after?] at h
    rw [ih w h, List.reverse_cons, tokens_object_append]
    simp [framesTokens_cons, Frame.tokens]
  case case15 =>
    intro ts v frames h₁ h₂ h₃ h₄ h₅ w h
    rw [after?] at h
    · cases h
    all_goals assumption

/-- The tokens from which a value is read are those of the value. -/
theorem value?_nil_eq_some_iff {ts : List Token} {v : Json} :
    value? [] ts = some v ↔ v.tokens = ts := by
  refine ⟨fun h => tokens_eq_framesTokens_append.1 [] ts v h, ?_⟩
  rintro rfl
  have hvalue := value?_tokens v [] []
  rwa [List.append_nil, after?] at hvalue

/-! ## Texts -/

/-- The text spells the value, in whatever layout and with whatever escapes. -/
def LaidOut (v : Json) (text : String) : Prop := Token.Laid v.tokens text.toList

theorem Spelt.laidOut_toText {v : Json} (hv : v.Spelt) : v.LaidOut v.toText :=
  v.spaced_toText.laid hv

theorem laidOut_iff {text : String} {v : Json} :
    v.LaidOut text ↔ Token.tokens? text.toList = some v.tokens := by
  constructor
  · intro h
    rw [Token.tokens?, h.tokensOnto_eq v.isChain_tokens, List.reverse_nil, List.nil_append]
  · intro h
    obtain ⟨new, hnew, hlaid⟩ := Token.exists_laid_of_tokensOnto h
    rw [List.reverse_nil, List.nil_append] at hnew
    rwa [LaidOut, hnew]

/-- A value is read from its texts and from no others. -/
theorem parse?_eq_some_iff {text : String} {v : Json} : parse? text = some v ↔ v.LaidOut text := by
  rw [laidOut_iff, parse?, Option.bind_eq_some_iff]
  simp only [value?_nil_eq_some_iff, exists_eq_right']

end Json
end Turnstile
