import Mathlib.Data.List.Nodup
import Mathlib.Data.List.Range
import Turnstile.Proofs.Branch.Outline

/-!
# The arena of an outline

`Planted` holds of the outline of a single branch and is kept by every write: the branches
are numbered in the order in which they were made, and numbers grow on the way down and on
the way aside.  An outline that is planted can be seen as an arena, which is all branches
in the order of their numbers, each with the handles right below it.  A new branch is then
the last entry, and the last child of its parent (`Planted.arena_spawn`), and a branch
that is changed is changed in its place (`Planted.arena_revise`).
-/

namespace Turnstile

variable {σ ε : Type}

theorem modify_map_range {α : Type} (n k : Nat) (value : Nat → α) (f : α → α) :
    ((List.range n).map value).modify k f =
      (List.range n).map fun i => if i = k then f (value i) else value i := by
  apply List.ext_getElem
  · simp
  · intro i hi hi'
    simp [List.getElem_modify, eq_comm]

namespace Outline

/-- All handles of an outline, in the order in which their branches were made. -/
def handles (o : Outline σ ε) : List Handle := (List.range o.size).map Handle.mk

/-- The branches in the order in which they were made, each with those right below it. -/
def arena (o : Outline σ ε) : List (Branch σ ε × List Handle) :=
  o.handles.map fun h => (o.branch h, o.children h)

theorem arena_eq (o : Outline σ ε) :
    o.arena = (List.range o.size).map fun n =>
      (o.branch { number := n }, o.children { number := n }) := by
  rw [arena, handles, List.map_map]
  rfl

/-- The number of a branch is less than those below it and those of its later siblings. -/
def Ordered : Outline σ ε → Prop
  | .nil => True
  | .node n _ below beside =>
    (∀ m ∈ below.numbers ++ beside.numbers, n < m) ∧ below.Ordered ∧ beside.Ordered

theorem mem_handles_iff {o : Outline σ ε} {h : Handle} : h ∈ o.handles ↔ h.number < o.size := by
  rw [handles, List.mem_map]
  constructor
  · rintro ⟨n, hn, rfl⟩
    exact List.mem_range.mp hn
  · intro hlt
    exact ⟨h.number, List.mem_range.mpr hlt, rfl⟩

theorem nodup_handles (o : Outline σ ε) : o.handles.Nodup :=
  List.nodup_range.map fun _ _ => congrArg Handle.number

theorem spawned_notMem_handles (o : Outline σ ε) (h : Handle) (b : Branch σ ε) :
    (o.spawn h b).1 ∉ o.handles := by
  rw [mem_handles_iff]
  exact Nat.lt_irrefl _

theorem size_revise (o : Outline σ ε) (h : Handle) (f : Branch σ ε → Branch σ ε) :
    (o.revise h f).2.size = o.size := by
  rw [← length_numbers, ← length_numbers]
  show (o.update h.number f).numbers.length = _
  rw [numbers_update]

theorem handles_revise (o : Outline σ ε) (h : Handle) (f : Branch σ ε → Branch σ ε) :
    (o.revise h f).2.handles = o.handles := by
  rw [handles, size_revise, ← handles]

theorem children_revise (o : Outline σ ε) (h : Handle) (f : Branch σ ε → Branch σ ε)
    (i : Handle) : (o.revise h f).2.children i = o.children i := by
  rw [children_eq_of_entryAt?, children_eq_of_entryAt?]
  show (((o.update h.number f).entryAt? i.number).map Prod.snd).getD [] = _
  rw [entryAt?_update, Option.map_map]
  rfl

theorem Ordered.append {o : Outline σ ε} (ho : o.Ordered) {number : Nat}
    (hnew : ∀ m ∈ o.numbers, m < number) (branch : Branch σ ε) :
    (o.append number branch).Ordered := by
  induction o with
  | nil => exact ⟨fun _ hm => absurd hm List.not_mem_nil, trivial, trivial⟩
  | node n b below beside _ ihs =>
    obtain ⟨hn, hbelow, hbeside⟩ := ho
    have hlater : ∀ m ∈ beside.numbers, m < number := fun m hm =>
      hnew m (List.mem_cons_of_mem _ (List.mem_append_right _ hm))
    refine ⟨?_, hbelow, ihs hbeside hlater⟩
    intro m hm
    rw [numbers_append, ← List.append_assoc, List.mem_append, List.mem_singleton] at hm
    rcases hm with hm | rfl
    · exact hn m hm
    · exact hnew n List.mem_cons_self

theorem Ordered.grow {o : Outline σ ε} (ho : o.Ordered) {number : Nat}
    (hnew : ∀ m ∈ o.numbers, m < number) (parent : Nat) (branch : Branch σ ε) :
    (o.grow parent number branch).Ordered := by
  induction o with
  | nil => trivial
  | node n b below beside ihb ihs =>
    obtain ⟨hn, hbelow, hbeside⟩ := ho
    have hnumber : n < number := hnew n List.mem_cons_self
    have hdown : ∀ m ∈ below.numbers, m < number := fun m hm =>
      hnew m (List.mem_cons_of_mem _ (List.mem_append_left _ hm))
    have haside : ∀ m ∈ beside.numbers, m < number := fun m hm =>
      hnew m (List.mem_cons_of_mem _ (List.mem_append_right _ hm))
    rw [Outline.grow]
    by_cases hparent : n = parent
    · rw [if_pos hparent]
      refine ⟨?_, hbelow.append hdown branch, hbeside⟩
      intro m hm
      rw [numbers_append, List.append_assoc, List.mem_append, List.mem_append,
        List.mem_singleton] at hm
      rcases hm with hm | rfl | hm
      · exact hn m (List.mem_append_left _ hm)
      · exact hnumber
      · exact hn m (List.mem_append_right _ hm)
    · rw [if_neg hparent]
      refine ⟨?_, ihb hbelow hdown, ihs hbeside haside⟩
      intro m hm
      rcases List.mem_append.mp hm with hm | hm
      · rcases mem_numbers_grow hm with hm | rfl
        · exact hn m (List.mem_append_left _ hm)
        · exact hnumber
      · rcases mem_numbers_grow hm with hm | rfl
        · exact hn m (List.mem_append_right _ hm)
        · exact hnumber

theorem Ordered.update {o : Outline σ ε} (ho : o.Ordered) (number : Nat)
    (f : Branch σ ε → Branch σ ε) : (o.update number f).Ordered := by
  induction o with
  | nil => trivial
  | node n b below beside ihb ihs =>
    obtain ⟨hn, hbelow, hbeside⟩ := ho
    rw [Outline.update]
    by_cases hnumber : n = number
    · rw [if_pos hnumber]
      exact ⟨hn, hbelow, hbeside⟩
    · rw [if_neg hnumber]
      refine ⟨?_, ihb hbelow, ihs hbeside⟩
      rw [numbers_update, numbers_update]
      exact hn

/-! ## Outlines that grew from a root -/

/-- What holds of the outline of a single branch and is kept by every write. -/
structure Planted (o : Outline σ ε) : Prop where
  ordered : o.Ordered
  numbers : o.numbers.Perm (List.range o.size)
  row : o.row = [Handle.root]

namespace Planted

variable {o : Outline σ ε}

theorem root : Planted (Outline.root : Outline σ ε) where
  ordered := ⟨fun _ hm => absurd hm List.not_mem_nil, trivial, trivial⟩
  numbers := List.Perm.refl _
  row := rfl

theorem nodup (ho : o.Planted) : o.numbers.Nodup := ho.numbers.nodup_iff.mpr List.nodup_range

theorem mem_numbers_iff (ho : o.Planted) {n : Nat} : n ∈ o.numbers ↔ n < o.size := by
  rw [ho.numbers.mem_iff, List.mem_range]

theorem size_notMem (ho : o.Planted) : o.size ∉ o.numbers := by
  rw [ho.mem_numbers_iff]
  exact Nat.lt_irrefl _

theorem perm_numbers_spawn (ho : o.Planted) {h : Handle} (hh : h ∈ o.handles)
    (b : Branch σ ε) : (o.spawn h b).2.numbers.Perm (o.size :: o.numbers) :=
  perm_numbers_grow ho.nodup (ho.mem_numbers_iff.mpr (mem_handles_iff.mp hh)) b

theorem size_spawn (ho : o.Planted) {h : Handle} (hh : h ∈ o.handles) (b : Branch σ ε) :
    (o.spawn h b).2.size = o.size + 1 := by
  have hlength := (ho.perm_numbers_spawn hh b).length_eq
  rw [length_numbers, List.length_cons, length_numbers] at hlength
  exact hlength

theorem spawned_mem_handles (ho : o.Planted) {h : Handle} (hh : h ∈ o.handles)
    (b : Branch σ ε) : (o.spawn h b).1 ∈ (o.spawn h b).2.handles := by
  rw [mem_handles_iff, ho.size_spawn hh]
  exact Nat.lt_succ_self _

/-- A branch that is not there gets no children. -/
theorem spawn_eq_of_notMem (ho : o.Planted) {h : Handle} (hh : h ∉ o.handles) (b : Branch σ ε) :
    (o.spawn h b).2 = o := by
  apply grow_of_notMem
  rw [ho.mem_numbers_iff, ← mem_handles_iff]
  exact hh

theorem spawn (ho : o.Planted) (h : Handle) (b : Branch σ ε) : (o.spawn h b).2.Planted := by
  by_cases hh : h ∈ o.handles
  · constructor
    case ordered =>
      exact ho.ordered.grow (fun _ hm => ho.mem_numbers_iff.mp hm) _ _
    case numbers =>
      rw [ho.size_spawn hh, List.range_succ]
      have hnew := (ho.perm_numbers_spawn hh b).trans (ho.numbers.cons o.size)
      exact hnew.trans (List.perm_append_singleton _ _).symm
    case row =>
      show (o.grow h.number o.size b).row = _
      rw [row_grow]
      exact ho.row
  · rw [ho.spawn_eq_of_notMem hh]
    exact ho

theorem revise_eq_of_notMem (ho : o.Planted) {h : Handle} (hh : h ∉ o.handles)
    (f : Branch σ ε → Branch σ ε) : (o.revise h f).2 = o := by
  apply update_of_notMem
  rw [ho.mem_numbers_iff, ← mem_handles_iff]
  exact hh

theorem revise (ho : o.Planted) (h : Handle) (f : Branch σ ε → Branch σ ε) :
    (o.revise h f).2.Planted := by
  constructor
  case ordered => exact ho.ordered.update _ _
  case numbers =>
    rw [size_revise]
    show (o.update h.number f).numbers.Perm _
    rw [numbers_update]
    exact ho.numbers
  case row =>
    show (o.update h.number f).row = _
    rw [row_update]
    exact ho.row

/-! ## What a call does to the arena -/

theorem entryAt?_eq_some (ho : o.Planted) {h : Handle} (hh : h ∈ o.handles) :
    o.entryAt? h.number = some (o.branch h, o.children h) := by
  rw [branch_eq_of_entryAt?, children_eq_of_entryAt?]
  cases hfound : o.entryAt? h.number with
  | some e => rfl
  | none =>
    have hmissing := entryAt?_eq_none_iff.mp hfound
    rw [ho.mem_numbers_iff, ← mem_handles_iff] at hmissing
    exact absurd hh hmissing

theorem entryAt?_eq_none (ho : o.Planted) {h : Handle} (hh : h ∉ o.handles) :
    o.entryAt? h.number = none := by
  rw [entryAt?_eq_none_iff, ho.mem_numbers_iff, ← mem_handles_iff]
  exact hh

variable {h : Handle}

/-- What is found of the branches after another has been added. -/
theorem entryAt?_spawn (ho : o.Planted) (hh : h ∈ o.handles) (b : Branch σ ε) (i : Handle) :
    (o.spawn h b).2.entryAt? i.number =
      if i = (o.spawn h b).1 then some (b, [])
      else if i = h then some (o.branch h, o.children h ++ [(o.spawn h b).1])
      else o.entryAt? i.number := by
  by_cases hnew : i = (o.spawn h b).1
  · rw [if_pos hnew, hnew]
    have hparent := ho.mem_numbers_iff.mpr (mem_handles_iff.mp hh)
    exact entryAt?_grow_self hparent ho.size_notMem b
  · have hne : i.number ≠ o.size := fun heq => hnew (congrArg Handle.mk heq)
    rw [if_neg hnew]
    show (o.grow h.number o.size b).entryAt? i.number = _
    rw [entryAt?_grow hne]
    by_cases hi : i = h
    · subst hi
      rw [if_pos rfl, ho.entryAt?_eq_some hh, Option.map_some, if_pos rfl]
      rfl
    · have hother : i.number ≠ h.number := fun heq => hi (congrArg Handle.mk heq)
      rw [if_neg hi]
      simp [hother]

theorem branch_spawn (ho : o.Planted) (hh : h ∈ o.handles) (b : Branch σ ε) (i : Handle) :
    (o.spawn h b).2.branch i = if i = (o.spawn h b).1 then b else o.branch i := by
  rw [branch_eq_of_entryAt?, ho.entryAt?_spawn hh]
  by_cases hnew : i = (o.spawn h b).1
  · rw [if_pos hnew, if_pos hnew]
    rfl
  · rw [if_neg hnew, if_neg hnew]
    by_cases hi : i = h
    · rw [if_pos hi, hi]
      rfl
    · rw [if_neg hi, branch_eq_of_entryAt?]

theorem children_spawn (ho : o.Planted) (hh : h ∈ o.handles) (b : Branch σ ε) (i : Handle) :
    (o.spawn h b).2.children i =
      if i = h then o.children h ++ [(o.spawn h b).1] else o.children i := by
  rw [children_eq_of_entryAt?, ho.entryAt?_spawn hh]
  by_cases hnew : i = (o.spawn h b).1
  · have hmissing := spawned_notMem_handles o h b
    rw [← hnew] at hmissing
    have hne : i ≠ h := fun heq => hmissing (heq ▸ hh)
    rw [if_pos hnew, if_neg hne, children_eq_of_entryAt?, ho.entryAt?_eq_none hmissing]
    rfl
  · rw [if_neg hnew]
    by_cases hi : i = h
    · rw [if_pos hi, if_pos hi]
      rfl
    · rw [if_neg hi, if_neg hi, children_eq_of_entryAt?]

theorem branch_revise (ho : o.Planted) (hh : h ∈ o.handles) (f : Branch σ ε → Branch σ ε)
    (i : Handle) : (o.revise h f).2.branch i = if i = h then f (o.branch h) else o.branch i := by
  rw [branch_eq_of_entryAt?]
  show (((o.update h.number f).entryAt? i.number).map Prod.fst).getD {} = _
  rw [entryAt?_update]
  by_cases hi : i = h
  · subst hi
    rw [ho.entryAt?_eq_some hh]
    simp
  · have hother : i.number ≠ h.number := fun heq => hi (congrArg Handle.mk heq)
    rw [if_neg hi, branch_eq_of_entryAt?]
    simp [hother]

/-- A new branch is the last entry of the arena and the last child of its parent. -/
theorem arena_spawn (ho : o.Planted) (hh : h ∈ o.handles) (b : Branch σ ε) :
    (o.spawn h b).2.arena =
      o.arena.modify h.number (fun e => (e.1, e.2 ++ [(o.spawn h b).1])) ++ [(b, [])] := by
  have hlast : (o.spawn h b).2.children (o.spawn h b).1 = [] := by
    rw [children_eq_of_entryAt?, ho.entryAt?_spawn hh, if_pos rfl]
    rfl
  have hold : ∀ n ∈ List.range o.size,
      ((o.spawn h b).2.branch { number := n }, (o.spawn h b).2.children { number := n }) =
        if n = h.number then (o.branch { number := n },
          o.children { number := n } ++ [(o.spawn h b).1])
        else (o.branch { number := n }, o.children { number := n }) := by
    intro n hn
    have hne : ({ number := n } : Handle) ≠ (o.spawn h b).1 := by
      intro heq
      have hsize : n = o.size := congrArg Handle.number heq
      exact Nat.ne_of_lt (List.mem_range.mp hn) hsize
    rw [ho.branch_spawn hh, if_neg hne, ho.children_spawn hh]
    by_cases hparent : n = h.number
    · subst hparent
      rw [if_pos rfl, if_pos rfl]
    · rw [if_neg hparent, if_neg (fun heq => hparent (congrArg Handle.number heq))]
  rw [arena_eq, arena_eq, modify_map_range, ho.size_spawn hh, List.range_succ, List.map_append,
    List.map_congr_left hold]
  show _ ++ [((o.spawn h b).2.branch (o.spawn h b).1, (o.spawn h b).2.children (o.spawn h b).1)] = _
  rw [ho.branch_spawn hh, if_pos rfl, hlast]

/-- Changing a branch changes its entry of the arena. -/
theorem arena_revise (ho : o.Planted) (hh : h ∈ o.handles) (f : Branch σ ε → Branch σ ε) :
    (o.revise h f).2.arena = o.arena.modify h.number fun e => (f (o.branch h), e.2) := by
  rw [arena_eq, arena_eq, modify_map_range, size_revise]
  apply List.map_congr_left
  intro n _
  rw [ho.branch_revise hh, children_revise]
  by_cases hn : n = h.number
  · subst hn
    rw [if_pos rfl, if_pos rfl]
  · rw [if_neg hn, if_neg (fun heq => hn (congrArg Handle.number heq))]

end Planted
end Outline
end Turnstile
