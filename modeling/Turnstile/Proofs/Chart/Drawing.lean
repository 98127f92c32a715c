import Mathlib.Algebra.Group.Nat.Even
import Turnstile.Chart.Drawing

/-!
# Where the label of an edge ends

Whoever reads a drawing takes a backslash in a quoted label together with the character behind
it.  No double quote is left inside a label, so the reader never stops too early.  It stops at
the quote that was drawn behind the label unless a backslash takes that quote along, and this
is so just when the name or tag of the condition ends in an odd number of backslashes
(`Transition.behindLabel?_eq`).  The label then stays open, and the reader goes on with the next
line of the drawing.
-/

namespace Turnstile
namespace Drawing

/-- What stands behind the quote that closes a quoted string.  The string begins at the front of
the text, and a backslash takes the character behind it along. -/
def behindQuoted? : List Char → Option (List Char)
  | [] => none
  | '"' :: rest => some rest
  | '\\' :: _ :: rest => behindQuoted? rest
  | _ :: rest => behindQuoted? rest

def backslashesAtEnd (cs : List Char) : Nat := (cs.reverse.takeWhile (· == '\\')).length

/-! ## Backslashes at the end -/

theorem backslashesAtEnd_append (front cs : List Char) :
    backslashesAtEnd (front ++ cs) =
      if backslashesAtEnd cs = cs.length then cs.length + backslashesAtEnd front
      else backslashesAtEnd cs := by
  unfold backslashesAtEnd
  rw [List.reverse_append, List.takeWhile_append, List.length_reverse]
  split
  · rw [List.length_append, List.length_reverse]
  · rfl

/-- What stands in front of a text does not matter if it ends in no half of a pair. -/
theorem even_backslashesAtEnd_append {front : List Char} (hfront : Even (backslashesAtEnd front))
    (cs : List Char) : Even (backslashesAtEnd (front ++ cs)) ↔ Even (backslashesAtEnd cs) := by
  rw [backslashesAtEnd_append]
  split
  · next hall => rw [Nat.even_add, hall, iff_true_right hfront]
  · rfl

theorem even_backslashesAtEnd_pair (c : Char) : Even (backslashesAtEnd ['\\', c]) := by
  by_cases h : c = '\\'
  · subst h
    decide
  · simp [backslashesAtEnd, h]

theorem even_backslashesAtEnd_singleton {c : Char} (h : c ≠ '\\') :
    Even (backslashesAtEnd [c]) := by
  simp [backslashesAtEnd, h]

/-! ## Quoted strings -/

/-- A quote behind a text without quotes closes it unless a backslash is left for the quote. -/
theorem behindQuoted?_append (cs rest : List Char) (hcs : '"' ∉ cs) :
    behindQuoted? (cs ++ '"' :: rest) =
      if Even (backslashesAtEnd cs) then some rest else behindQuoted? rest := by
  induction cs using behindQuoted?.induct with
  | case1 => rfl
  | case2 tail => exact absurd List.mem_cons_self hcs
  | case3 c tail ih =>
    have htail : '"' ∉ tail := fun h => hcs (List.mem_cons_of_mem _ (List.mem_cons_of_mem _ h))
    have heven : Even (backslashesAtEnd ('\\' :: c :: tail)) ↔ Even (backslashesAtEnd tail) :=
      even_backslashesAtEnd_append (even_backslashesAtEnd_pair c) tail
    rw [List.cons_append, List.cons_append, behindQuoted?, ih htail]
    simp only [heven]
  | case4 c tail hquote hpair ih =>
    by_cases hc : c = '\\'
    · -- a backslash that nothing follows takes the quote
      subst hc
      cases tail with
      | nil => rfl
      | cons d tail => exact (hpair d tail rfl rfl).elim
    · have htail : '"' ∉ tail := fun h => hcs (List.mem_cons_of_mem _ h)
      have heven : Even (backslashesAtEnd (c :: tail)) ↔ Even (backslashesAtEnd tail) :=
        even_backslashesAtEnd_append (even_backslashesAtEnd_singleton hc) tail
      rw [List.cons_append, behindQuoted?]
      · rw [ih htail]
        simp only [heven]
      · exact hquote
      · intro d more heq
        exact absurd heq hc

end Drawing

/-! ## Labels -/

open Drawing

variable {σ ε : Type}

namespace Transition

theorem quote_notMem_drawLabel (label : String) : '"' ∉ (drawLabel label).toList := by
  rw [drawLabel, String.toList_ofList]
  intro h
  obtain ⟨c, -, hc⟩ := List.mem_map.mp h
  split at hc
  · cases hc
  · next hne => exact hne hc

theorem backslashesAtEnd_drawLabel (label : String) :
    backslashesAtEnd (drawLabel label).toList = backslashesAtEnd label.toList := by
  have hbackslash : ((· == '\\') ∘ fun c => if c = '"' then '\'' else c) = (· == '\\') := by
    funext c
    by_cases hc : c = '"'
    · subst hc
      decide
    · simp [hc]
  unfold backslashesAtEnd
  rw [drawLabel, String.toList_ofList, ← List.map_reverse, List.takeWhile_map, hbackslash,
    List.length_map]

/-- The exclamation mark of a negated condition does not matter. -/
theorem even_backslashesAtEnd_guardLabel (negate : Bool) (label : String) :
    Even (backslashesAtEnd ((if negate then "!" else "") ++ label).toList) ↔
      Even (backslashesAtEnd label.toList) := by
  rw [String.toList_append]
  refine even_backslashesAtEnd_append ?_ _
  cases negate
  all_goals decide

/-- What a reader finds behind the label of a drawn transition.  The label is opened behind the
names of the states. -/
def behindLabel? (t : Transition σ ε) : Option (List Char) :=
  behindQuoted? (t.draw.toList.drop (t.text ++ " [label=\"").toList.length)

/-- A label is opened behind the names of the states, and the line of its edge ends in a quote
and a bracket.  No quote before that one closes the label.  That one closes it if the name or tag
of the condition ends in an even number of backslashes, as it does when there are none, and
otherwise the label is open at the end of the line. -/
theorem behindLabel?_eq {t : Transition σ ε} {c : Condition σ ε} (hc : t.condition = some c) :
    (t.text ++ " [label=\"").toList <+: t.draw.toList ∧
      ['"', ']'] <:+ t.draw.toList ∧
      t.behindLabel? = if Even (backslashesAtEnd c.label.toList) then some [']'] else none := by
  let label := (if t.negate then "!" else "") ++ c.label
  have hlabel : t.guardLabel = some label := by rw [guardLabel, hc, Option.map_some]
  have hdraw : t.draw.toList =
      (t.text ++ " [label=\"").toList ++ ((drawLabel label).toList ++ ['"', ']']) := by
    have htext : t.draw = t.text ++ " [label=\"" ++ drawLabel label ++ "\"]" := by
      unfold draw
      rw [hlabel]
    rw [htext, String.toList_append, String.toList_append, List.append_assoc]
    rfl
  refine ⟨⟨_, hdraw.symm⟩, ?_, ?_⟩
  · rw [hdraw, ← List.append_assoc]
    exact List.suffix_append _ _
  · have heven : Even (backslashesAtEnd (drawLabel label).toList) ↔
        Even (backslashesAtEnd c.label.toList) := by
      rw [backslashesAtEnd_drawLabel]
      exact even_backslashesAtEnd_guardLabel t.negate c.label
    have hquote := quote_notMem_drawLabel label
    rw [behindLabel?, hdraw, List.drop_left, behindQuoted?_append _ _ hquote]
    simp only [heven]
    rfl

/-- The tag has quotes and ends in two backslashes, the name in one. -/
theorem behindLabel?_street :
    let door : Transition Bool String :=
      { source := "street", target := "hall", negate := true,
        condition := some (.predicate "sign == \"\\\\" fun open? _ => open?) }
    let gate : Transition Bool String :=
      { source := "street", target := "garden", condition := some (.named "gate\\") }
    door.draw = "street -> hall [label=\"!sign == '\\\\\"]" ∧ door.behindLabel? = some [']'] ∧
      gate.draw = "street -> garden [label=\"gate\\\"]" ∧ gate.behindLabel? = none := by
  intro door gate
  obtain ⟨-, -, hdoor⟩ := behindLabel?_eq (t := door) rfl
  obtain ⟨-, -, hgate⟩ := behindLabel?_eq (t := gate) rfl
  exact ⟨by decide, hdoor, by decide, hgate⟩

/-- A label can be left open. -/
theorem not_forall_behindLabel?_eq :
    ¬ ∀ t : Transition Bool String, t.condition.isSome = true → t.behindLabel? = some [']'] := by
  intro hcloses
  let gate : Transition Bool String :=
    { source := "street", target := "garden", condition := some (.named "gate\\") }
  exact absurd (hcloses gate rfl) (by decide)

end Transition
end Turnstile
