import Mathlib.Data.List.Chain
import Turnstile.Json.Parser
import Turnstile.Proofs.Json.Grammar

/-!
# JSON values are read back from their tokens

`Json.tokens` is the row of tokens that a value is written with.  Two facts meet at it.
The reader of values takes that row, inside whatever arrays and objects are still open,
for the value (`value?_tokens`); this holds of every value.  The writer writes that row
token by token (`render_eq`), and the reader of tokens cuts a token off again
(`tokensOnto_render_append`).  For a number that takes something behind it that does not go
on with it, and in the row of a value there is always a comma or a bracket
(`isChain_tokens`).  Blanks may stand around the tokens, and change nothing
(`Laid.tokensOnto_eq`).

What remains to be asked of a value is that each of its tokens is read from its own text.
The values that are made of texts and natural numbers are of that kind (`Spelt`).
-/

namespace Turnstile
namespace Json

/-! ## The tokens of a value -/

mutual

def tokens : Json → List Token
  | .null => [.null]
  | .bool b => [.bool b]
  | .number lexeme => [.number lexeme]
  | .string ps => [.string ps]
  | .array [] => [.openBracket, .closeBracket]
  | .array (item :: items) =>
    .openBracket :: (tokens item ++ itemTokens items ++ [.closeBracket])
  | .object [] => [.openBrace, .closeBrace]
  | .object ((key, v) :: members) =>
    .openBrace :: .string key :: .colon :: (tokens v ++ memberTokens members ++ [.closeBrace])

/-- The items of an array after its first, each behind a comma. -/
def itemTokens : List Json → List Token
  | [] => []
  | item :: items => .comma :: (tokens item ++ itemTokens items)

/-- The members of an object after its first, each behind a comma. -/
def memberTokens : List (List Piece × Json) → List Token
  | [] => []
  | (key, v) :: members => .comma :: .string key :: .colon :: (tokens v ++ memberTokens members)

end

theorem exists_tokens_eq_cons (v : Json) : ∃ t ts, v.tokens = t :: ts ∧ t ≠ .closeBracket := by
  match v with
  | .null | .bool _ | .number _ | .string _ => exact ⟨_, _, rfl, by simp⟩
  | .array [] | .array (_ :: _) | .object [] | .object ((_, _) :: _) => exact ⟨_, _, rfl, by simp⟩

/-- An array that has just been opened goes on with its first item. -/
theorem value?_openBracket (v : Json) (frames : List Frame) (rest : List Token) :
    value? frames (.openBracket :: (v.tokens ++ rest)) =
      value? (.array [] :: frames) (v.tokens ++ rest) := by
  obtain ⟨t, ts, hv, ht⟩ := exists_tokens_eq_cons v
  rw [hv, List.cons_append, value?]
  intro tail heq
  exact ht (List.cons.inj heq).1

mutual

/-- The reader takes the tokens of a value for the value and goes on behind them. -/
theorem value?_tokens (v : Json) (frames : List Frame) (rest : List Token) :
    value? frames (v.tokens ++ rest) = after? v frames rest := by
  match v with
  | .null | .bool _ | .number _ | .string _ | .array [] | .object [] =>
    simp only [tokens, List.cons_append, List.nil_append, value?]
  | .array (item :: items) =>
    have hrest := after?_itemTokens item items [] frames rest
    rw [tokens, List.cons_append, List.append_assoc, List.append_assoc, value?_openBracket,
      value?_tokens item]
    exact hrest
  | .object ((key, v) :: members) =>
    have hrest := after?_memberTokens key v members [] frames rest
    rw [tokens, List.cons_append, List.cons_append, List.cons_append, List.append_assoc,
      List.append_assoc, value?, value?_tokens v]
    exact hrest

/-- Behind an item the reader takes the other items and closes the array. -/
theorem after?_itemTokens (v : Json) (items done : List Json) (frames : List Frame)
    (rest : List Token) :
    after? v (.array done :: frames) (itemTokens items ++ ([.closeBracket] ++ rest)) =
      after? (.array (done.reverse ++ v :: items)) frames rest := by
  match items with
  | [] =>
    simp only [itemTokens, List.nil_append, List.cons_append, after?, List.reverse_cons]
  | item :: items =>
    have hrest := after?_itemTokens item items (v :: done) frames rest
    rw [List.reverse_cons, List.append_assoc] at hrest
    rw [itemTokens, List.cons_append, List.append_assoc, after?, value?_tokens item]
    exact hrest

/-- Behind a member the reader takes the other members and closes the object. -/
theorem after?_memberTokens (key : List Piece) (v : Json)
    (members done : List (List Piece × Json)) (frames : List Frame) (rest : List Token) :
    after? v (.object done key :: frames) (memberTokens members ++ ([.closeBrace] ++ rest)) =
      after? (.object (done.reverse ++ (key, v) :: members)) frames rest := by
  match members with
  | [] =>
    simp only [memberTokens, List.nil_append, List.cons_append, after?, List.reverse_cons]
  | (next, w) :: members =>
    have hrest := after?_memberTokens next w members ((key, v) :: done) frames rest
    rw [List.reverse_cons, List.append_assoc] at hrest
    rw [memberTokens, List.cons_append, List.cons_append, List.cons_append, List.append_assoc,
      after?, value?_tokens w]
    exact hrest

end

/-! ## The text of a token -/

namespace Token

def render : Token → List Char
  | .openBrace => ['{']
  | .closeBrace => ['}']
  | .openBracket => ['[']
  | .closeBracket => [']']
  | .colon => [':']
  | .comma => [',']
  | .null => ['n', 'u', 'l', 'l']
  | .bool true => ['t', 'r', 'u', 'e']
  | .bool false => ['f', 'a', 'l', 's', 'e']
  | .number lexeme => lexeme
  | .string ps => renderPieces ps

/-- The token is what is read from its own text. -/
def Spelt (t : Token) : Prop := next? t.render = some (t, [])

/-- The token is read off a text whatever follows it there. -/
def ShowsEnd : Token → Prop
  | .number _ => False
  | .string ps => ∃ text, ps = pieces text
  | _ => True

theorem spelt_string (text : String) : (string (pieces text)).Spelt := by
  have hread := next?_renderPieces text []
  rwa [List.append_nil] at hread

theorem spelt_number (n : Nat) : (number (Text.digits n)).Spelt :=
  next?_of_number? (number?_digits n)

theorem ShowsEnd.spelt {t : Token} (ht : t.ShowsEnd) : t.Spelt := by
  match t with
  | .openBrace | .closeBrace | .openBracket | .closeBracket | .colon | .comma | .null
  | .bool true | .bool false => rfl
  | .number _ => exact ht.elim
  | .string ps =>
    obtain ⟨text, rfl⟩ := ht
    exact spelt_string text

theorem ShowsEnd.halts {t : Token} (ht : t.ShowsEnd) {rest : List Char} :
    ∀ lexeme, t = .number lexeme → Halts rest := by
  rintro lexeme rfl
  exact ht.elim

/-- No token begins with a blank. -/
theorem isSpace_eq_false_of_next? {c : Char} {cs rest : List Char} {t : Token}
    (h : next? (c :: cs) = some (t, rest)) : isSpace c = false := by
  rw [Bool.eq_false_iff]
  intro hspace
  simp only [isSpace, Bool.or_eq_true, beq_iff_eq] at hspace
  rcases hspace with ((rfl | rfl) | rfl) | rfl
  all_goals cases h

theorem Spelt.isSpace_eq_false {t : Token} (ht : t.Spelt) {c : Char} {cs : List Char}
    (h : t.render = c :: cs) : isSpace c = false := by
  rw [Spelt, h] at ht
  exact isSpace_eq_false_of_next? ht

theorem tokensOnto_of_next? {read : List Token} {c : Char} {cs rest : List Char} {t : Token}
    (hnext : next? (c :: cs) = some (t, rest)) :
    tokensOnto read (c :: cs) = tokensOnto (t :: read) rest := by
  rw [tokensOnto, isSpace_eq_false_of_next? hnext]
  simp only [Bool.false_eq_true, if_false]
  split
  · next h =>
    rw [hnext] at h
    cases h
  · next u rest' h =>
    rw [hnext] at h
    obtain ⟨rfl, rfl⟩ := Prod.mk.inj (Option.some.inj h)
    rfl

/-- A token is cut off in front of what does not go on with it. -/
theorem Written.tokensOnto_append {t : Token} {front : List Char} (ht : t.Written front)
    {rest : List Char} (hrest : ∀ lexeme, t = .number lexeme → Halts rest) (read : List Token) :
    tokensOnto read (front ++ rest) = tokensOnto (t :: read) rest := by
  have hnext := next?_append ht.next?_eq hrest
  cases front with
  | nil => cases ht.next?_eq
  | cons c front => exact tokensOnto_of_next? hnext

theorem Spelt.written {t : Token} (ht : t.Spelt) : t.Written t.render := next?_eq_some_nil_iff.mp ht

theorem tokensOnto_render_append {t : Token} (ht : t.Spelt) {rest : List Char}
    (hrest : ∀ lexeme, t = .number lexeme → Halts rest) (read : List Token) :
    tokensOnto read (t.render ++ rest) = tokensOnto (t :: read) rest :=
  ht.written.tokensOnto_append hrest read

/-! ## Tokens with blanks around them -/

/-- The text spells the tokens, with blanks before, between and behind them. -/
inductive Spaced : List Token → List Char → Prop
  | nil {blanks : List Char} (hblanks : ∀ c ∈ blanks, isSpace c = true) : Spaced [] blanks
  | cons {blanks rest : List Char} {t : Token} {ts : List Token}
      (hblanks : ∀ c ∈ blanks, isSpace c = true) (hrest : Spaced ts rest) :
      Spaced (t :: ts) (blanks ++ (t.render ++ rest))

theorem spaced_flatMap_render (ts : List Token) : Spaced ts (ts.flatMap render) := by
  have hnone : ∀ c ∈ ([] : List Char), isSpace c = true := fun _ hc => absurd hc List.not_mem_nil
  induction ts with
  | nil => exact .nil hnone
  | cons t ts ih => exact .cons hnone ih

theorem tokensOnto_append_of_blanks {blanks : List Char}
    (hblanks : ∀ c ∈ blanks, isSpace c = true) (read : List Token) (rest : List Char) :
    tokensOnto read (blanks ++ rest) = tokensOnto read rest := by
  induction blanks with
  | nil => rfl
  | cons c blanks ih =>
    rw [List.cons_append, tokensOnto, if_pos (hblanks c List.mem_cons_self)]
    exact ih fun d hd => hblanks d (List.mem_cons_of_mem _ hd)

/-- The token may stand right behind a value. -/
def endsValue : Token → Bool
  | .comma | .closeBracket | .closeBrace => true
  | _ => false

/-- The second token may stand right behind the first one.  Only a number asks anything of it. -/
def Parts : Token → Token → Prop
  | .number _, u => u.endsValue = true
  | _, _ => True

theorem isChain_cons_of_forall {t : Token} {ts : List Token} (ht : ∀ u, t.Parts u)
    (hts : ts.IsChain Parts) : (t :: ts).IsChain Parts :=
  List.isChain_cons.mpr ⟨fun u _ => ht u, hts⟩

theorem goesOn_eq_false_of_isSpace {c : Char} (hc : isSpace c = true) : goesOn c = false := by
  simp only [isSpace, Bool.or_eq_true, beq_iff_eq] at hc
  rcases hc with ((rfl | rfl) | rfl) | rfl
  all_goals decide

/-- A number ends before a row of tokens that may stand behind a value. -/
theorem Laid.halts {ts : List Token} {cs : List Char} (hl : Laid ts cs)
    (hts : ∀ u ∈ ts.head?, u.endsValue = true) : Halts cs := by
  cases hl with
  | nil hblanks =>
    intro c hc
    exact goesOn_eq_false_of_isSpace (hblanks c (List.mem_of_mem_head? hc))
  | @cons blanks front rest t ts hblanks ht hrest =>
    cases blanks with
    | nil =>
      have hends := hts t rfl
      cases ht with
      | comma | closeBracket | closeBrace => exact halts_cons (by decide) rest
      | _ => cases hends
    | cons b blanks =>
      exact halts_cons (goesOn_eq_false_of_isSpace (hblanks b List.mem_cons_self)) _

theorem Laid.tokensOnto_eq {ts : List Token} {cs : List Char} (hl : Laid ts cs)
    (hparts : ts.IsChain Parts) (read : List Token) :
    tokensOnto read cs = some (read.reverse ++ ts) := by
  induction hl generalizing read with
  | @nil blanks hblanks =>
    have hend := tokensOnto_append_of_blanks hblanks read []
    rw [List.append_nil] at hend
    rw [hend, tokensOnto, List.append_nil]
  | @cons blanks front rest t ts hblanks ht hrest ih =>
    obtain ⟨hnext, hchain⟩ := List.isChain_cons.mp hparts
    have hhalts : ∀ lexeme, t = .number lexeme → Halts rest := by
      rintro lexeme rfl
      exact hrest.halts hnext
    rw [tokensOnto_append_of_blanks hblanks, ht.tokensOnto_append hhalts, ih hchain (t :: read),
      List.reverse_cons, List.append_assoc, List.singleton_append]

theorem Spaced.laid {ts : List Token} {cs : List Char} (hs : Spaced ts cs)
    (hspelt : ∀ t ∈ ts, t.Spelt) : Laid ts cs := by
  induction hs with
  | nil hblanks => exact .nil hblanks
  | cons hblanks hrest ih =>
    obtain ⟨ht, hts⟩ := List.forall_mem_cons.mp hspelt
    exact .cons hblanks ht.written (ih hts)

end Token

/-! ## The text of a value -/

mutual

theorem render_eq (v : Json) : v.render = v.tokens.flatMap Token.render := by
  match v with
  | .null | .bool true | .bool false | .number _ | .string _ | .array [] | .object [] =>
    simp [render, tokens, Token.render]
  | .array (item :: items) =>
    simp [render, tokens, Token.render, render_eq item, renderItems_eq items]
  | .object ((key, v) :: members) =>
    simp [render, tokens, Token.render, render_eq v, renderMembers_eq members]

theorem renderItems_eq (items : List Json) :
    renderItems items = (itemTokens items).flatMap Token.render := by
  match items with
  | [] => rfl
  | item :: items =>
    simp [renderItems, itemTokens, Token.render, render_eq item, renderItems_eq items]

theorem renderMembers_eq (members : List (List Piece × Json)) :
    renderMembers members = (memberTokens members).flatMap Token.render := by
  match members with
  | [] => rfl
  | (key, v) :: members =>
    simp [renderMembers, memberTokens, Token.render, render_eq v, renderMembers_eq members]

end

theorem toList_toText (v : Json) : v.toText.toList = v.tokens.flatMap Token.render := by
  rw [toText, String.toList_ofList, render_eq]

theorem spaced_toText (v : Json) : Token.Spaced v.tokens v.toText.toList := by
  rw [toList_toText]
  exact Token.spaced_flatMap_render v.tokens

/-! ## The row of a value -/

/-- The tokens may stand right behind a value. -/
structure Token.Behind (ts : List Token) : Prop where
  chain : ts.IsChain Parts
  ends : ∀ u ∈ ts.head?, u.endsValue = true

namespace Token.Behind

variable {ts : List Token}

theorem nil : Behind [] := ⟨.nil, fun _ hu => absurd hu (Option.not_mem_none _)⟩

theorem cons {t : Token} (ht : t.endsValue = true) (hts : ts.IsChain Parts) : Behind (t :: ts) := by
  refine ⟨isChain_cons_of_forall (fun u => ?_) hts, ?_⟩
  · match t with
    | .comma | .closeBracket | .closeBrace => trivial
  · rintro u hu
    rw [← Option.some.inj hu]
    exact ht

end Token.Behind

theorem isChain_member (key : List Piece) {ts : List Token} (hts : ts.IsChain Token.Parts) :
    (Token.string key :: .colon :: ts).IsChain Token.Parts :=
  Token.isChain_cons_of_forall (fun _ => trivial)
    (Token.isChain_cons_of_forall (fun _ => trivial) hts)

mutual

/-- The tokens of a value may stand side by side, also with others that may stand behind it. -/
theorem isChain_tokens_append (v : Json) {ts : List Token} (hts : Token.Behind ts) :
    (v.tokens ++ ts).IsChain Token.Parts := by
  match v with
  | .null | .bool _ | .string _ =>
    exact Token.isChain_cons_of_forall (fun _ => trivial) hts.chain
  | .number _ => exact List.isChain_cons.mpr ⟨hts.ends, hts.chain⟩
  | .array [] | .object [] =>
    exact Token.isChain_cons_of_forall (fun _ => trivial) (Token.Behind.cons rfl hts.chain).chain
  | .array (item :: items) =>
    have hrest := isChain_tokens_append item
      (behind_itemTokens_append items (.cons (t := .closeBracket) rfl hts.chain))
    rw [tokens, List.cons_append, List.append_assoc, List.append_assoc]
    exact Token.isChain_cons_of_forall (fun _ => trivial) hrest
  | .object ((key, v) :: members) =>
    have hrest := isChain_tokens_append v
      (behind_memberTokens_append members (.cons (t := .closeBrace) rfl hts.chain))
    rw [tokens, List.cons_append, List.cons_append, List.cons_append, List.append_assoc,
      List.append_assoc]
    exact Token.isChain_cons_of_forall (fun _ => trivial) (isChain_member key hrest)

theorem behind_itemTokens_append (items : List Json) {ts : List Token} (hts : Token.Behind ts) :
    Token.Behind (itemTokens items ++ ts) := by
  match items with
  | [] => exact hts
  | item :: items =>
    have hrest := isChain_tokens_append item (behind_itemTokens_append items hts)
    rw [itemTokens, List.cons_append, List.append_assoc]
    exact .cons rfl hrest

theorem behind_memberTokens_append (members : List (List Piece × Json)) {ts : List Token}
    (hts : Token.Behind ts) : Token.Behind (memberTokens members ++ ts) := by
  match members with
  | [] => exact hts
  | (key, v) :: members =>
    have hrest := isChain_tokens_append v (behind_memberTokens_append members hts)
    rw [memberTokens, List.cons_append, List.cons_append, List.cons_append, List.append_assoc]
    exact .cons rfl (isChain_member key hrest)

end

theorem isChain_tokens (v : Json) : v.tokens.IsChain Token.Parts := by
  have hchain := isChain_tokens_append v .nil
  rwa [List.append_nil] at hchain

/-! ## Values that are read back -/

/-- Each token of the value is what is read from its own text. -/
def Spelt (v : Json) : Prop := ∀ t ∈ v.tokens, t.Spelt

/-- A value is read from its tokens, however they are spaced. -/
theorem Spelt.parse?_of_spaced {v : Json} (hv : v.Spelt) {text : String}
    (hs : Token.Spaced v.tokens text.toList) : parse? text = some v := by
  have hvalue := value?_tokens v [] []
  rw [List.append_nil] at hvalue
  rw [parse?, Token.tokens?, (hs.laid hv).tokensOnto_eq v.isChain_tokens, List.reverse_nil,
    List.nil_append, Option.bind_some, hvalue, after?]

theorem Spelt.parse?_toText {v : Json} (hv : v.Spelt) : parse? v.toText = some v :=
  hv.parse?_of_spaced v.spaced_toText

theorem spelt_null : null.Spelt := fun _ ht => List.mem_singleton.mp ht ▸ rfl

theorem spelt_bool (b : Bool) : (bool b).Spelt := by
  rintro _ ht
  obtain rfl := List.mem_singleton.mp ht
  cases b
  all_goals rfl

theorem spelt_ofString (text : String) : (ofString text).Spelt :=
  fun _ ht => List.mem_singleton.mp ht ▸ Token.spelt_string text

theorem spelt_ofNat (n : Nat) : (ofNat n).Spelt :=
  fun _ ht => List.mem_singleton.mp ht ▸ Token.spelt_number n

theorem spelt_of_mem_itemTokens {items : List Json} (hitems : ∀ v ∈ items, v.Spelt) {t : Token}
    (ht : t ∈ itemTokens items) : t.Spelt := by
  induction items with
  | nil => cases ht
  | cons item items ih =>
    rw [itemTokens, List.mem_cons, List.mem_append] at ht
    rcases ht with rfl | ht | ht
    · rfl
    · exact hitems item List.mem_cons_self t ht
    · exact ih (fun v hv => hitems v (List.mem_cons_of_mem _ hv)) ht

theorem spelt_array {items : List Json} (hitems : ∀ v ∈ items, v.Spelt) : (array items).Spelt := by
  intro t ht
  match items with
  | [] =>
    rcases List.mem_pair.mp ht with rfl | rfl
    all_goals rfl
  | item :: items =>
    obtain ⟨hitem, hothers⟩ := List.forall_mem_cons.mp hitems
    simp only [tokens, List.mem_cons, List.mem_append, List.not_mem_nil, or_false] at ht
    rcases ht with rfl | (ht | ht) | rfl
    · rfl
    · exact hitem t ht
    · exact spelt_of_mem_itemTokens hothers ht
    · rfl

/-- The members of an object are spelt like the items of an array, each behind its key. -/
theorem spelt_of_mem_memberTokens {members : List (String × Json)}
    (hmembers : ∀ m ∈ members, m.2.Spelt) {t : Token}
    (ht : t ∈ memberTokens (members.map fun m => (pieces m.1, m.2))) : t.Spelt := by
  induction members with
  | nil => cases ht
  | cons m members ih =>
    rw [List.map_cons, memberTokens, List.mem_cons, List.mem_cons, List.mem_cons,
      List.mem_append] at ht
    rcases ht with rfl | rfl | rfl | ht | ht
    · rfl
    · exact Token.spelt_string m.1
    · rfl
    · exact hmembers m List.mem_cons_self t ht
    · exact ih (fun n hn => hmembers n (List.mem_cons_of_mem _ hn)) ht

theorem spelt_ofMembers {members : List (String × Json)} (hmembers : ∀ m ∈ members, m.2.Spelt) :
    (ofMembers members).Spelt := by
  intro t ht
  match members with
  | [] =>
    rcases List.mem_pair.mp ht with rfl | rfl
    all_goals rfl
  | m :: members =>
    obtain ⟨hm, hothers⟩ := List.forall_mem_cons.mp hmembers
    simp only [ofMembers, List.map_cons, tokens, List.mem_cons, List.mem_append,
      List.not_mem_nil, or_false] at ht
    rcases ht with rfl | rfl | rfl | (ht | ht) | rfl
    · rfl
    · exact Token.spelt_string m.1
    · rfl
    · exact hm t ht
    · exact spelt_of_mem_memberTokens hothers ht
    · rfl

end Json
end Turnstile
