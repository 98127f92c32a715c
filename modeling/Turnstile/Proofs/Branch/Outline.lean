import Turnstile.Branch.Build

/-!
# Writing to one branch of an outline

A write changes one branch of an outline, or gives it a branch more below it.  What is
found at a number afterwards is said once for each kind of write (`entryAt?_update`,
`entryAt?_grow`, `entryAt?_grow_self`), and from then on an outline is read only through
`branch` and `children`.
-/

namespace Turnstile

variable {σ ε : Type}

namespace Outline

/-- The handles of the branches that stand side by side at the top. -/
def row : Outline σ ε → List Handle
  | .nil => []
  | .node n _ _ beside => { number := n } :: beside.row

/-- The handles of the branches right below a branch, in order. -/
def children (o : Outline σ ε) (h : Handle) : List Handle := (o.under h).row

/-- What is found at a number: a branch and the handles right below it. -/
def entryAt? (o : Outline σ ε) (m : Nat) : Option (Branch σ ε × List Handle) :=
  (o.find? m).map fun e => (e.1, e.2.row)

theorem branch_eq_of_entryAt? (o : Outline σ ε) (h : Handle) :
    o.branch h = ((o.entryAt? h.number).map Prod.fst).getD {} := by
  unfold branch entryAt?
  cases o.find? h.number <;> rfl

theorem children_eq_of_entryAt? (o : Outline σ ε) (h : Handle) :
    o.children h = ((o.entryAt? h.number).map Prod.snd).getD [] := by
  unfold children under entryAt?
  cases o.find? h.number <;> rfl

theorem entryAt?_node (n : Nat) (b : Branch σ ε) (below beside : Outline σ ε) (m : Nat) :
    (node n b below beside).entryAt? m =
      if n = m then some (b, below.row) else (below.entryAt? m).or (beside.entryAt? m) := by
  unfold entryAt?
  rw [find?]
  by_cases hm : n = m
  · rw [if_pos hm, if_pos hm]
    rfl
  · rw [if_neg hm, if_neg hm]
    cases below.find? m <;> rfl

theorem entryAt?_eq_none_iff {o : Outline σ ε} {m : Nat} : o.entryAt? m = none ↔ m ∉ o.numbers := by
  induction o with
  | nil => simp [entryAt?, find?, numbers]
  | node n b below beside ihb ihs =>
    rw [entryAt?_node, numbers]
    by_cases hm : n = m
    · simp [hm]
    · simp [hm, Ne.symm hm, Option.or_eq_none_iff, ihb, ihs]

theorem row_append (number : Nat) (branch : Branch σ ε) (o : Outline σ ε) :
    (o.append number branch).row = o.row ++ [{ number := number }] := by
  induction o with
  | nil => rfl
  | node n b below beside _ ihs => rw [append, row, row, ihs, List.cons_append]

@[simp] theorem row_grow (parent number : Nat) (branch : Branch σ ε) (o : Outline σ ε) :
    (o.grow parent number branch).row = o.row := by
  induction o with
  | nil => rfl
  | node n b below beside _ ihs =>
    rw [grow]
    by_cases hn : n = parent
    · rw [if_pos hn]
      rfl
    · rw [if_neg hn, row, row, ihs]

@[simp] theorem row_update (number : Nat) (f : Branch σ ε → Branch σ ε) (o : Outline σ ε) :
    (o.update number f).row = o.row := by
  induction o with
  | nil => rfl
  | node n b below beside _ ihs =>
    rw [update]
    by_cases hn : n = number
    · rw [if_pos hn]
      rfl
    · rw [if_neg hn, row, row, ihs]

/-! ## Changing a branch -/

theorem entryAt?_update (number : Nat) (f : Branch σ ε → Branch σ ε) (o : Outline σ ε) (m : Nat) :
    (o.update number f).entryAt? m =
      (o.entryAt? m).map fun e => (if m = number then f e.1 else e.1, e.2) := by
  induction o with
  | nil => rfl
  | node n b below beside ihb ihs =>
    rw [update, entryAt?_node]
    by_cases hn : n = number
    · subst hn
      rw [if_pos rfl, entryAt?_node]
      by_cases hm : n = m
      · simp [hm]
      · simp [hm, Ne.symm hm]
    · rw [if_neg hn, entryAt?_node, ihb, ihs, ← Option.map_or, row_update]
      by_cases hm : n = m
      · subst hm
        simp [hn]
      · rw [if_neg hm, if_neg hm]

theorem update_of_notMem {number : Nat} {o : Outline σ ε} (hnumber : number ∉ o.numbers)
    (f : Branch σ ε → Branch σ ε) : o.update number f = o := by
  induction o with
  | nil => rfl
  | node n b below beside ihb ihs =>
    rw [numbers, List.mem_cons, List.mem_append, not_or, not_or] at hnumber
    rw [update, if_neg (Ne.symm hnumber.1), ihb hnumber.2.1, ihs hnumber.2.2]

/-! ## Adding a branch -/

theorem entryAt?_append_of_ne {number m : Nat} (hm : m ≠ number) (branch : Branch σ ε)
    (o : Outline σ ε) : (o.append number branch).entryAt? m = o.entryAt? m := by
  induction o with
  | nil => simp [append, entryAt?, find?, Ne.symm hm]
  | node n b below beside _ ihs => rw [append, entryAt?_node, entryAt?_node, ihs]

theorem entryAt?_append_self {number : Nat} {o : Outline σ ε} (hnumber : number ∉ o.numbers)
    (branch : Branch σ ε) : (o.append number branch).entryAt? number = some (branch, []) := by
  induction o with
  | nil => simp [append, entryAt?, find?, row]
  | node n b below beside _ ihs =>
    rw [numbers, List.mem_cons, List.mem_append, not_or, not_or] at hnumber
    rw [append, entryAt?_node, if_neg (Ne.symm hnumber.1), entryAt?_eq_none_iff.mpr hnumber.2.1,
      Option.none_or, ihs hnumber.2.2]

theorem grow_of_notMem {parent : Nat} {o : Outline σ ε} (hparent : parent ∉ o.numbers)
    (number : Nat) (branch : Branch σ ε) : o.grow parent number branch = o := by
  induction o with
  | nil => rfl
  | node n b below beside ihb ihs =>
    rw [numbers, List.mem_cons, List.mem_append, not_or, not_or] at hparent
    rw [grow, if_neg (Ne.symm hparent.1), ihb hparent.2.1, ihs hparent.2.2]

/-- A new branch changes nothing of the old ones, but that it stands below its parent, as
the last of those there. -/
theorem entryAt?_grow {number m : Nat} (hm : m ≠ number) (parent : Nat) (branch : Branch σ ε)
    (o : Outline σ ε) :
    (o.grow parent number branch).entryAt? m =
      (o.entryAt? m).map fun e =>
        (e.1, if m = parent then e.2 ++ [{ number := number }] else e.2) := by
  induction o with
  | nil => rfl
  | node n b below beside ihb ihs =>
    rw [grow, entryAt?_node]
    by_cases hn : n = parent
    · subst hn
      rw [if_pos rfl, entryAt?_node, row_append, entryAt?_append_of_ne hm]
      by_cases hmn : n = m
      · simp [hmn]
      · simp [hmn, Ne.symm hmn]
    · rw [if_neg hn, entryAt?_node, ihb, ihs, ← Option.map_or, row_grow]
      by_cases hmn : n = m
      · subst hmn
        simp [hn]
      · rw [if_neg hmn, if_neg hmn]

theorem entryAt?_grow_self {parent number : Nat} {o : Outline σ ε} (hparent : parent ∈ o.numbers)
    (hnumber : number ∉ o.numbers) (branch : Branch σ ε) :
    (o.grow parent number branch).entryAt? number = some (branch, []) := by
  induction o with
  | nil => cases hparent
  | node n b below beside ihb ihs =>
    rw [numbers, List.mem_cons, List.mem_append, not_or, not_or] at hnumber
    rw [numbers, List.mem_cons, List.mem_append] at hparent
    have hne : n ≠ number := Ne.symm hnumber.1
    rw [grow]
    by_cases hn : n = parent
    · rw [if_pos hn, entryAt?_node, if_neg hne, entryAt?_append_self hnumber.2.1, Option.some_or]
    · rw [if_neg hn, entryAt?_node, if_neg hne]
      by_cases hbelow : parent ∈ below.numbers
      · rw [ihb hbelow hnumber.2.1, Option.some_or]
      · have hbeside : parent ∈ beside.numbers := by
          rcases hparent with hparent | hparent | hparent
          · exact absurd hparent.symm hn
          · exact absurd hparent hbelow
          · exact hparent
        rw [grow_of_notMem hbelow, entryAt?_eq_none_iff.mpr hnumber.2.1, Option.none_or,
          ihs hbeside hnumber.2.2]

theorem mem_numbers_grow {parent number m : Nat} {branch : Branch σ ε} {o : Outline σ ε}
    (hm : m ∈ (o.grow parent number branch).numbers) : m ∈ o.numbers ∨ m = number := by
  by_cases hnew : m = number
  · exact .inr hnew
  · left
    by_cases hold : m ∈ o.numbers
    · exact hold
    · have hfound := entryAt?_grow hnew parent branch o
      rw [entryAt?_eq_none_iff.mpr hold, Option.map_none, entryAt?_eq_none_iff] at hfound
      exact absurd hm hfound

theorem perm_numbers_grow {parent number : Nat} {o : Outline σ ε} (ho : o.numbers.Nodup)
    (hparent : parent ∈ o.numbers) (branch : Branch σ ε) :
    (o.grow parent number branch).numbers.Perm (number :: o.numbers) := by
  induction o with
  | nil => cases hparent
  | node n b below beside ihb ihs =>
    rw [numbers, List.nodup_cons, List.nodup_append] at ho
    obtain ⟨-, hbelow, hbeside, hapart⟩ := ho
    rw [numbers, List.mem_cons, List.mem_append] at hparent
    rw [grow]
    by_cases hn : n = parent
    · rw [if_pos hn, numbers, numbers, numbers_append, List.append_assoc, List.singleton_append]
      exact (List.Perm.cons n List.perm_middle).trans (.swap number n _)
    · rw [if_neg hn, numbers, numbers]
      by_cases hwhere : parent ∈ below.numbers
      · have hfree : parent ∉ beside.numbers := fun h => hapart parent hwhere parent h rfl
        rw [grow_of_notMem hfree]
        have hgrown := (ihb hbelow hwhere).append_right beside.numbers
        exact (hgrown.cons n).trans (.swap number n _)
      · have hthere : parent ∈ beside.numbers := by
          rcases hparent with hparent | hparent | hparent
          · exact absurd hparent.symm hn
          · exact absurd hparent hwhere
          · exact hparent
        rw [grow_of_notMem hwhere]
        have hgrown := (ihs hbeside hthere).append_left below.numbers
        exact ((hgrown.trans List.perm_middle).cons n).trans (.swap number n _)

end Outline
end Turnstile
