import Mathlib.Algebra.Group.Nat.Defs
import Turnstile.Position
import Turnstile.Proofs.Json.Extent
import Turnstile.Proofs.Text.Utf8

/-!
# Positions are found again

A position is read back from its text, whatever characters the name has and however the
tokens of the text are spaced, and from its bytes, whatever stands behind them, as long as
the length of the name fits the bytes in front of it.  Neither form is found in a part of
itself: a text or a row of bytes that is cut short is refused (`ofText_exact`,
`ofBytes_exact`).
-/

namespace Turnstile

namespace Position

/-- The form that was given to read is refused. -/
def Unreadable (result : Except PositionError Position) : Prop :=
  ∃ reason, result = .error (.unreadable reason)

/-! ## The JSON form -/

/-- The tokens of the text of a position: one member between braces. -/
def tokens (p : Position) : List Json.Token :=
  [.openBrace, .string (Json.pieces "current_state"), .colon, .string (Json.pieces p.state),
    .closeBrace]

theorem tokens_toJson (p : Position) : p.toJson.tokens = p.tokens := by
  simp [toJson, Json.ofMembers, Json.ofString, Json.tokens, Json.memberTokens, tokens]

theorem showsEnd_of_mem_tokens_toJson {p : Position} {t : Json.Token} (ht : t ∈ p.toJson.tokens) :
    t.ShowsEnd := by
  rw [tokens_toJson, tokens] at ht
  simp only [List.mem_cons, List.not_mem_nil, or_false] at ht
  rcases ht with rfl | rfl | rfl | rfl | rfl
  · trivial
  · exact ⟨_, rfl⟩
  · trivial
  · exact ⟨_, rfl⟩
  · trivial

@[simp] theorem ofJson?_toJson (p : Position) : ofJson? p.toJson = some p := by
  have hfields : p.toJson.fields? ["current_state"] =
      some [("current_state", Json.ofString p.state)] := by
    simp [toJson, Json.ofMembers, Json.fields?, Json.keyed?]
  have hstate : Json.required? [("current_state", Json.ofString p.state)] "current_state"
      Json.string? = some p.state := by
    simp [Json.required?]
  rw [ofJson?, hfields]
  simp [hstate]

theorem ofText_of_spaced {p : Position} {text : String}
    (hs : Json.Token.Spaced p.tokens text.toList) : ofText text = .ok p := by
  rw [← tokens_toJson] at hs
  have hspelt : p.toJson.Spelt := fun _ ht => (showsEnd_of_mem_tokens_toJson ht).spelt
  rw [ofText, hspelt.parse?_of_spaced hs, Option.bind_some, ofJson?_toJson]

theorem spaced_toText (p : Position) : Json.Token.Spaced p.tokens p.toText.toList := by
  rw [← tokens_toJson]
  exact Json.spaced_toText p.toJson

theorem ofText_toText (p : Position) : ofText p.toText = .ok p := ofText_of_spaced p.spaced_toText

theorem unreadable_ofText_of_parse? {text : String} (h : Json.parse? text = none) :
    Unreadable (ofText text) := by
  unfold ofText
  rw [h]
  exact ⟨_, rfl⟩

/-- The text of a position is one member between braces, without blanks.  The position is read
from it, also when blanks are put before, between and behind the tokens, but neither from a
part of the text that lacks its end nor from the text with anything but blanks behind it.
Different positions have different texts. -/
theorem ofText_exact (p : Position) :
    p.toText.toList = p.tokens.flatMap Json.Token.render ∧
    ofText p.toText = .ok p ∧
    (∀ text : String, Json.Token.Spaced p.tokens text.toList → ofText text = .ok p) ∧
    (∀ text : String, text.toList <+: p.toText.toList → text ≠ p.toText →
      Unreadable (ofText text)) ∧
    (∀ rest : String, (∃ c ∈ rest.toList, Json.Token.isSpace c = false) →
      Unreadable (ofText (p.toText ++ rest))) ∧
    ∀ q : Position, q.toText = p.toText → q = p := by
  refine ⟨?_, p.ofText_toText, fun text => ofText_of_spaced, ?_, ?_, ?_⟩
  · rw [← tokens_toJson]
    exact Json.toList_toText p.toJson
  · intro text hcut hne
    exact unreadable_ofText_of_parse?
      (Json.parse?_eq_none_of_cut (fun _ => showsEnd_of_mem_tokens_toJson) hcut hne)
  · intro rest hrest
    exact unreadable_ofText_of_parse?
      (Json.parse?_toText_append_eq_none (fun _ => showsEnd_of_mem_tokens_toJson) hrest)
  · intro q hq
    have hread := q.ofText_toText
    rw [hq, p.ofText_toText] at hread
    exact (Except.ok.inj hread).symm

/-- The name is a quote and a control character, both of which are escaped, and the cut goes
through an escape. -/
theorem ofText_quote :
    let quote : Position := { state := "\"\x01" }
    quote.toText = "\x7b\"current_state\":\"\\\"\\u0001\"\x7d" ∧
      ofText "\t\x7b \"current_state\"\n:\"\\\"\\u0001\" \x7d\r" = .ok quote ∧
      Unreadable (ofText "\x7b\"current_state\":\"\\\"\\u00") ∧
      Unreadable (ofText ("\x7b\"current_state\":\"\\\"\\u0001\"\x7d" ++ " \x7d")) := by
  intro quote
  have htext : quote.toText = "\x7b\"current_state\":\"\\\"\\u0001\"\x7d" := by decide
  obtain ⟨-, -, hspaced, hcut, hmore, -⟩ := ofText_exact quote
  rw [htext] at hcut hmore
  have hblanks : Json.Token.Spaced quote.tokens
      (['\t'] ++ (['\x7b'] ++ ([' '] ++ (Json.renderPieces (Json.pieces "current_state") ++
        (['\n'] ++ ([':'] ++ ([] ++ (Json.renderPieces (Json.pieces quote.state) ++
          ([' '] ++ (['\x7d'] ++ ['\r'])))))))))) :=
    .cons (List.all_eq_true.mp rfl) <| .cons (List.all_eq_true.mp rfl) <|
      .cons (List.all_eq_true.mp rfl) <| .cons (List.all_eq_true.mp rfl) <|
      .cons (List.all_eq_true.mp rfl) <| .nil (List.all_eq_true.mp rfl)
  exact ⟨htext, hspaced _ (Eq.mp (congrArg (Json.Token.Spaced quote.tokens) (by decide)) hblanks),
    hcut _ ⟨['0', '1', '"', '\x7d'], by decide⟩ (by decide),
    hmore _ ⟨'\x7d', by decide, by decide⟩⟩

/-! ## The binary form -/

/-- The length of the name can be written in front of it. -/
def Fits (p : Position) : Prop := (Text.utf8 p.state).length < UInt64.size

instance (p : Position) : Decidable p.Fits := Nat.decLt _ _

/-- The length that is written at the front of a row of bytes. -/
def announced (bytes : List UInt8) : Nat := Text.ofLittleEndian (bytes.take lengthWidth)

/-- The bytes of the name behind a length, as many as the length says. -/
def payload (bytes : List UInt8) : List UInt8 := (bytes.drop lengthWidth).take (announced bytes)

theorem ofBytes?_eq_some_iff {bytes : List UInt8} {p : Position} :
    ofBytes? bytes = some p ↔
      lengthWidth ≤ bytes.length ∧ announced bytes ≤ (bytes.drop lengthWidth).length ∧
        Text.utf8 p.state = payload bytes := by
  show (if lengthWidth ≤ bytes.length ∧ announced bytes ≤ (bytes.drop lengthWidth).length then
    (Text.ofUtf8? (payload bytes)).map Position.mk else none) = some p ↔ _
  rw [Option.ite_none_right_eq_some, Option.map_eq_some_iff, and_assoc]
  simp only [Text.ofUtf8?_eq_some_iff]
  constructor
  · rintro ⟨hwidth, hlength, text, htext, rfl⟩
    exact ⟨hwidth, hlength, htext⟩
  · rintro ⟨hwidth, hlength, htext⟩
    exact ⟨hwidth, hlength, p.state, htext, rfl⟩

theorem ofBytes?_eq_none_iff {bytes : List UInt8} :
    ofBytes? bytes = none ↔
      bytes.length < lengthWidth ∨ (bytes.drop lengthWidth).length < announced bytes ∨
        ¬ Text.SpellsText (payload bytes) := by
  show (if lengthWidth ≤ bytes.length ∧ announced bytes ≤ (bytes.drop lengthWidth).length then
    (Text.ofUtf8? (payload bytes)).map Position.mk else none) = none ↔ _
  by_cases hlength : lengthWidth ≤ bytes.length ∧ announced bytes ≤ (bytes.drop lengthWidth).length
  · rw [if_pos hlength, Option.map_eq_none_iff, Text.ofUtf8?_eq_none_iff]
    constructor
    · exact fun hspells => .inr (.inr hspells)
    · rintro (hshort | hshort | hspells)
      · exact absurd hlength.1 (Nat.not_le_of_lt hshort)
      · exact absurd hlength.2 (Nat.not_le_of_lt hshort)
      · exact hspells
  · rw [if_neg hlength]
    simp only [true_iff]
    rw [Classical.not_and_iff_not_or_not, Nat.not_le, Nat.not_le] at hlength
    exact hlength.imp_right .inl

theorem ofBytes_eq_ok_iff {bytes : List UInt8} {p : Position} :
    ofBytes bytes = .ok p ↔ ofBytes? bytes = some p := by
  unfold ofBytes
  cases ofBytes? bytes <;> simp

theorem unreadable_ofBytes_iff {bytes : List UInt8} :
    Unreadable (ofBytes bytes) ↔ ofBytes? bytes = none := by
  unfold ofBytes Unreadable
  cases ofBytes? bytes <;> simp

/-- What is read is what stands there, and it could be written. -/
theorem isPrefix_of_ofBytes {bytes : List UInt8} {p : Position} (h : ofBytes bytes = .ok p) :
    p.Fits ∧ p.toBytes <+: bytes := by
  obtain ⟨hwidth, hlength, hname⟩ := ofBytes?_eq_some_iff.mp (ofBytes_eq_ok_iff.mp h)
  have hfront : (bytes.take lengthWidth).length = lengthWidth := List.length_take_of_le hwidth
  have hsize : (Text.utf8 p.state).length = announced bytes := by
    rw [hname]
    exact List.length_take_of_le hlength
  have hnumber : Text.littleEndian lengthWidth (announced bytes) = bytes.take lengthWidth := by
    have hback := Text.littleEndian_ofLittleEndian (bytes.take lengthWidth)
    rwa [hfront] at hback
  constructor
  · have hlt := Text.ofLittleEndian_lt (bytes.take lengthWidth)
    rw [hfront] at hlt
    rw [Fits, hsize]
    exact hlt
  · rw [toBytes, hsize, hnumber, hname, payload, ← List.take_add]
    exact List.take_prefix _ _

theorem ofBytes_toBytes_append {p : Position} (hp : p.Fits) (rest : List UInt8) :
    ofBytes (p.toBytes ++ rest) = .ok p := by
  have hwidth := Text.length_littleEndian lengthWidth (Text.utf8 p.state).length
  have hdrop : (p.toBytes ++ rest).drop lengthWidth = Text.utf8 p.state ++ rest := by
    rw [toBytes, List.append_assoc, List.drop_left' hwidth]
  have hannounced : announced (p.toBytes ++ rest) = (Text.utf8 p.state).length := by
    rw [announced, toBytes, List.append_assoc, List.take_left' hwidth]
    exact Text.ofLittleEndian_littleEndian hp
  rw [ofBytes_eq_ok_iff, ofBytes?_eq_some_iff, payload, hdrop, hannounced, List.take_left]
  refine ⟨?_, ?_, rfl⟩
  · rw [toBytes, List.append_assoc, List.length_append, hwidth]
    exact Nat.le_add_right _ _
  · rw [List.length_append]
    exact Nat.le_add_right _ _

theorem ofBytes_eq_ok_iff_isPrefix {p : Position} (hp : p.Fits) {bytes : List UInt8} :
    ofBytes bytes = .ok p ↔ p.toBytes <+: bytes := by
  constructor
  · exact fun h => (isPrefix_of_ofBytes h).2
  · rintro ⟨rest, rfl⟩
    exact ofBytes_toBytes_append hp rest

/-- No position is written at the front of another one. -/
theorem eq_of_toBytes_isPrefix {p q : Position} (hp : p.Fits) (hq : q.Fits)
    (h : q.toBytes <+: p.toBytes) : q = p := by
  have hread := (ofBytes_eq_ok_iff_isPrefix hq).mpr h
  have hself := (ofBytes_eq_ok_iff_isPrefix hp).mpr (List.prefix_refl p.toBytes)
  exact Except.ok.inj (hread.symm.trans hself)

theorem unreadable_of_isPrefix_toBytes {p : Position} (hp : p.Fits) {bytes : List UInt8}
    (hcut : bytes <+: p.toBytes) (hne : bytes ≠ p.toBytes) : Unreadable (ofBytes bytes) := by
  rw [unreadable_ofBytes_iff]
  cases hread : ofBytes? bytes with
  | none => rfl
  | some q =>
    obtain ⟨hq, hfront⟩ := isPrefix_of_ofBytes (ofBytes_eq_ok_iff.mpr hread)
    obtain rfl := eq_of_toBytes_isPrefix hp hq (hfront.trans hcut)
    exact absurd (hcut.eq_of_length_le hfront.length_le) hne

/-- A position is read from the bytes that begin with its own, and from no others.  What
stands behind them does not matter, but nothing of them may be missing, and no position
begins another one.  Bytes are refused when they are too few for a length, when the length
exceeds what stands behind it, and when what it measures off spells no text. -/
theorem ofBytes_exact {p : Position} (hp : p.Fits) :
    (∀ bytes, ofBytes bytes = .ok p ↔ p.toBytes <+: bytes) ∧
    ofBytes p.toBytes = .ok p ∧
    (∀ rest, ofBytes (p.toBytes ++ rest) = .ok p) ∧
    (∀ bytes, bytes <+: p.toBytes → bytes ≠ p.toBytes → Unreadable (ofBytes bytes)) ∧
    (∀ q : Position, q.Fits → q ≠ p → ¬ q.toBytes <+: p.toBytes ∧ ¬ p.toBytes <+: q.toBytes) ∧
    ∀ bytes, Unreadable (ofBytes bytes) ↔
      bytes.length < 8 ∨ (bytes.drop 8).length < announced bytes ∨
        ¬ Text.SpellsText (payload bytes) := by
  refine ⟨fun bytes => ofBytes_eq_ok_iff_isPrefix hp, ?_, ofBytes_toBytes_append hp,
    fun bytes => unreadable_of_isPrefix_toBytes hp, ?_, ?_⟩
  · exact (ofBytes_eq_ok_iff_isPrefix hp).mpr (List.prefix_refl _)
  · intro q hq hne
    constructor
    · exact fun h => hne (eq_of_toBytes_isPrefix hp hq h)
    · exact fun h => hne (eq_of_toBytes_isPrefix hq hp h).symm
  · intro bytes
    rw [unreadable_ofBytes_iff]
    exact ofBytes?_eq_none_iff

/-- The name of the café takes five bytes, of which the last one may not be cut off. -/
theorem ofBytes_cafe :
    let cafe : Position := { state := "café" }
    cafe.Fits ∧ cafe.toBytes = [5, 0, 0, 0, 0, 0, 0, 0, 0x63, 0x61, 0x66, 0xC3, 0xA9] ∧
      ofBytes ([5, 0, 0, 0, 0, 0, 0, 0, 0x63, 0x61, 0x66, 0xC3, 0xA9] ++ [7]) = .ok cafe ∧
      Unreadable (ofBytes [5, 0, 0, 0, 0, 0, 0, 0, 0x63, 0x61, 0x66, 0xC3]) ∧
      Unreadable (ofBytes [255, 255, 255, 255, 255, 255, 255, 255, 0x63]) ∧
      Unreadable (ofBytes [2, 0, 0, 0, 0, 0, 0, 0, 0xC3, 0x63]) := by
  intro cafe
  have hfits : cafe.Fits := by decide
  have hbytes : cafe.toBytes = [5, 0, 0, 0, 0, 0, 0, 0, 0x63, 0x61, 0x66, 0xC3, 0xA9] := by decide
  obtain ⟨-, -, hmore, hcut, -, hrefused⟩ := ofBytes_exact hfits
  rw [hbytes] at hmore hcut
  refine ⟨hfits, hbytes, hmore [7], ?_, ?_, ?_⟩
  · exact hcut _ ⟨[0xA9], rfl⟩ (by decide)
  · exact (hrefused _).mpr (.inr (.inl (by decide)))
  · exact (hrefused _).mpr (.inr (.inr (Text.ofUtf8?_eq_none_iff.mp (by decide))))

end Position
end Turnstile
