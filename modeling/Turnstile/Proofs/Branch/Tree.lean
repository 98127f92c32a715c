import Mathlib.Logic.Relation
import Mathlib.Order.RelClasses
import Turnstile.Proofs.Branch.Arena

/-!
# An outline is a tree, and its transitions are read on a walk of the tree

The rows below and beside a branch stand `Inside` the outline, and as no number occurs
twice, what is found inside is what is found in the whole.  Inductions over an outline
therefore go through for what its handles read in the whole.  They show that the children
lists of an outline make a tree (`Planted.tree`), and that the transitions from a handle
are those of its branch and then, child by child, those from its children
(`Planted.transitionsFrom_eq`).
-/

namespace Turnstile

open Relation

variable {σ ε : Type}

namespace Outline

/-- All handles of an outline, each before those below it. -/
def preorder (o : Outline σ ε) : List Handle := o.numbers.map Handle.mk

theorem preorder_node (n : Nat) (b : Branch σ ε) (below beside : Outline σ ε) :
    (node n b below beside).preorder = { number := n } :: (below.preorder ++ beside.preorder) := by
  rw [preorder, numbers, List.map_cons, List.map_append]
  rfl

/-- A row of branches that is found in an outline by going down and aside. -/
inductive Inside (o : Outline σ ε) : Outline σ ε → Prop
  | whole : Inside o o
  | down {n : Nat} {b : Branch σ ε} {below beside : Outline σ ε}
      (h : Inside o (.node n b below beside)) : Inside o below
  | aside {n : Nat} {b : Branch σ ε} {below beside : Outline σ ε}
      (h : Inside o (.node n b below beside)) : Inside o beside

theorem mem_numbers_of_find? {o : Outline σ ε} {m : Nat} {e : Branch σ ε × Outline σ ε}
    (he : o.find? m = some e) : m ∈ o.numbers := by
  by_cases hm : m ∈ o.numbers
  · exact hm
  · have hnone := entryAt?_eq_none_iff.mpr hm
    rw [entryAt?, he] at hnone
    cases hnone

theorem mem_numbers_of_mem_row {o : Outline σ ε} {h : Handle} (hh : h ∈ o.row) :
    h.number ∈ o.numbers := by
  induction o with
  | nil => cases hh
  | node n b below beside _ ihs =>
    rw [row, List.mem_cons] at hh
    rcases hh with rfl | hh
    · exact List.mem_cons_self
    · exact List.mem_cons_of_mem _ (List.mem_append_right _ (ihs hh))

namespace Inside

variable {o part : Outline σ ε}

theorem nodup (hp : o.Inside part) (ho : o.numbers.Nodup) : part.numbers.Nodup := by
  induction hp with
  | whole => exact ho
  | down h ih =>
    rw [numbers, List.nodup_cons, List.nodup_append] at ih
    exact ih.2.1
  | aside h ih =>
    rw [numbers, List.nodup_cons, List.nodup_append] at ih
    exact ih.2.2.1

theorem ordered (hp : o.Inside part) (ho : o.Ordered) : part.Ordered := by
  induction hp with
  | whole => exact ho
  | down h ih => exact ih.2.1
  | aside h ih => exact ih.2.2

theorem exists_node (hp : o.Inside part) {m : Nat} (hm : m ∈ part.numbers) :
    ∃ b below beside, o.Inside (.node m b below beside) := by
  induction part with
  | nil => cases hm
  | node n b below beside ihb ihs =>
    rw [numbers, List.mem_cons, List.mem_append] at hm
    rcases hm with rfl | hm | hm
    · exact ⟨b, below, beside, hp⟩
    · exact ihb hp.down hm
    · exact ihs hp.aside hm

theorem numbers_subset (hp : o.Inside part) : part.numbers ⊆ o.numbers := by
  induction hp with
  | whole => exact fun _ hm => hm
  | down h ih => exact fun m hm => ih (List.mem_cons_of_mem _ (List.mem_append_left _ hm))
  | aside h ih => exact fun m hm => ih (List.mem_cons_of_mem _ (List.mem_append_right _ hm))

theorem find?_eq (hp : o.Inside part) (ho : o.numbers.Nodup) {m : Nat}
    {e : Branch σ ε × Outline σ ε} (he : part.find? m = some e) : o.find? m = some e := by
  induction hp with
  | whole => exact he
  | @down n b below beside h ih =>
    apply ih
    have hnodup := h.nodup ho
    rw [numbers, List.nodup_cons] at hnodup
    have hne : n ≠ m := by
      rintro rfl
      exact hnodup.1 (List.mem_append_left _ (mem_numbers_of_find? he))
    rw [find?, if_neg hne, he]
  | @aside n b below beside h ih =>
    apply ih
    have hnodup := h.nodup ho
    rw [numbers, List.nodup_cons, List.nodup_append] at hnodup
    have hm := mem_numbers_of_find? he
    have hne : n ≠ m := by
      rintro rfl
      exact hnodup.1 (List.mem_append_right _ hm)
    have hnone : below.find? m = none := by
      cases hfound : below.find? m with
      | none => rfl
      | some e => exact absurd rfl (hnodup.2.2.2 m (mem_numbers_of_find? hfound) m hm)
    rw [find?, if_neg hne, hnone, he]

section Node

variable {n : Nat} {b : Branch σ ε} {below beside : Outline σ ε}

theorem find?_node (hp : o.Inside (.node n b below beside)) (ho : o.numbers.Nodup) :
    o.find? n = some (b, below) := by
  apply hp.find?_eq ho
  rw [find?, if_pos rfl]

theorem branch_eq (hp : o.Inside (.node n b below beside)) (ho : o.numbers.Nodup) :
    o.branch { number := n } = b := by
  rw [branch, hp.find?_node ho]

theorem under_eq (hp : o.Inside (.node n b below beside)) (ho : o.numbers.Nodup) :
    o.under { number := n } = below := by
  rw [under, hp.find?_node ho]

theorem children_eq (hp : o.Inside (.node n b below beside)) (ho : o.numbers.Nodup) :
    o.children { number := n } = below.row := by
  rw [children, hp.under_eq ho]

end Node

/-- The transitions of a row are those read branch by branch in the whole outline. -/
theorem transitions_eq (hp : o.Inside part) (ho : o.numbers.Nodup) :
    part.transitions = part.row.flatMap o.transitionsFrom := by
  induction part with
  | nil => rfl
  | node n b below beside _ ihs =>
    have hfirst : o.transitionsFrom { number := n } =
        b.transition?.toList ++ below.transitions := by
      rw [transitionsFrom, hp.branch_eq ho, hp.under_eq ho]
    rw [transitions, row, List.flatMap_cons, hfirst, ihs hp.aside]

theorem transitions_eq_filterMap (hp : o.Inside part) (ho : o.numbers.Nodup) :
    part.transitions = part.preorder.filterMap fun h => (o.branch h).transition? := by
  induction part with
  | nil => rfl
  | node n b below beside ihb ihs =>
    have hrest : (below.preorder ++ beside.preorder).filterMap
        (fun h => (o.branch h).transition?) = below.transitions ++ beside.transitions := by
      rw [List.filterMap_append, ← ihb hp.down, ← ihs hp.aside]
    rw [preorder_node, List.filterMap_cons, hp.branch_eq ho, hrest, transitions]
    cases b.transition? <;> rfl

/-- Every branch of a row stands either at its top or among the children of one of them. -/
theorem perm_children (hp : o.Inside part) (ho : o.numbers.Nodup) :
    (part.preorder.flatMap o.children ++ part.row).Perm part.preorder := by
  induction part with
  | nil => exact List.Perm.refl _
  | node n b below beside ihb ihs =>
    rw [preorder_node, row, List.flatMap_cons, List.flatMap_append, hp.children_eq ho]
    have hbelow := ihb hp.down
    have hbeside := ihs hp.aside
    have hmove : (below.row ++ (below.preorder.flatMap o.children ++
        beside.preorder.flatMap o.children) ++ { number := n } :: beside.row).Perm
        ({ number := n } :: ((below.preorder.flatMap o.children ++ below.row) ++
          (beside.preorder.flatMap o.children ++ beside.row))) := by
      refine List.perm_middle.trans (List.Perm.cons _ ?_)
      rw [← List.append_assoc, List.append_assoc]
      exact List.perm_append_comm.append_right _
    exact hmove.trans ((hbelow.append hbeside).cons _)

end Inside

theorem Ordered.pairwise_row {o : Outline σ ε} (ho : o.Ordered) :
    o.row.Pairwise fun a b => a.number < b.number := by
  induction o with
  | nil => exact List.Pairwise.nil
  | node n b below beside _ ihs =>
    obtain ⟨hn, -, hbeside⟩ := ho
    rw [row, List.pairwise_cons]
    refine ⟨?_, ihs hbeside⟩
    intro h hh
    exact hn h.number (List.mem_append_right _ (mem_numbers_of_mem_row hh))

/-- The children lists of an outline make a tree: children come after their parent and in
the order in which they were made, and every branch but the root is a child once. -/
structure Tree (o : Outline σ ε) : Prop where
  later : ∀ p, ∀ c ∈ o.children p, p.number < c.number ∧ c ∈ o.handles
  ascending : ∀ p, (o.children p).Pairwise fun a b => a.number < b.number
  once : (o.handles.flatMap o.children).Perm o.handles.tail

namespace Planted

variable {o : Outline σ ε}

theorem perm_preorder (ho : o.Planted) : o.preorder.Perm o.handles := ho.numbers.map _

theorem exists_node (ho : o.Planted) {h : Handle} (hh : h ∈ o.handles) :
    ∃ b below beside, o.Inside (.node h.number b below beside) :=
  Inside.whole.exists_node (ho.mem_numbers_iff.mpr (mem_handles_iff.mp hh))

theorem children_eq_nil (ho : o.Planted) {h : Handle} (hh : h ∉ o.handles) :
    o.children h = [] := by
  rw [children_eq_of_entryAt?, ho.entryAt?_eq_none hh]
  rfl

theorem handles_eq_cons (ho : o.Planted) : o.handles = Handle.root :: o.handles.tail := by
  have hroot : (0 : Nat) ∈ o.numbers :=
    mem_numbers_of_mem_row (o := o) (h := Handle.root) (by rw [ho.row]; exact List.mem_cons_self)
  have hpos : 0 < o.size := ho.mem_numbers_iff.mp hroot
  obtain ⟨n, hn⟩ := Nat.exists_eq_succ_of_ne_zero (Nat.ne_of_gt hpos)
  rw [handles, hn, List.range_succ_eq_map]
  rfl

theorem tree (ho : o.Planted) : o.Tree := by
  constructor
  case later =>
    intro p c hc
    by_cases hp : p ∈ o.handles
    · obtain ⟨b, below, beside, hnode⟩ := ho.exists_node hp
      rw [hnode.children_eq ho.nodup] at hc
      have hbelow := mem_numbers_of_mem_row hc
      constructor
      · exact (hnode.ordered ho.ordered).1 c.number (List.mem_append_left _ hbelow)
      · exact mem_handles_iff.mpr (ho.mem_numbers_iff.mp (hnode.down.numbers_subset hbelow))
    · rw [ho.children_eq_nil hp] at hc
      cases hc
  case ascending =>
    intro p
    by_cases hp : p ∈ o.handles
    · obtain ⟨b, below, beside, hnode⟩ := ho.exists_node hp
      have hrow := (hnode.down.ordered ho.ordered).pairwise_row
      rw [← hnode.children_eq ho.nodup] at hrow
      exact hrow
    · rw [ho.children_eq_nil hp]
      exact List.Pairwise.nil
  case once =>
    have hall := Inside.whole.perm_children ho.nodup
    rw [ho.row] at hall
    have hperm : (o.handles.flatMap o.children ++ [Handle.root]).Perm o.handles :=
      ((ho.perm_preorder.flatMap_right o.children).symm.append_right _).trans
        (hall.trans ho.perm_preorder)
    have hroot : (Handle.root :: o.handles.flatMap o.children).Perm
        (Handle.root :: o.handles.tail) := by
      rw [← ho.handles_eq_cons]
      exact (List.perm_append_singleton _ _).symm.trans hperm
    exact hroot.cons_inv

/-- From the root one gets down to every branch. -/
theorem reached (ho : o.Planted) {h : Handle} (hh : h ∈ o.handles) :
    ReflTransGen (fun p c => c ∈ o.children p) Handle.root h := by
  obtain ⟨n⟩ := h
  induction n using Nat.strongRecOn with
  | ind n ih =>
    rw [ho.handles_eq_cons, List.mem_cons] at hh
    rcases hh with heq | hh
    · rw [heq]
    · obtain ⟨p, hp, hchild⟩ := List.mem_flatMap.mp (ho.tree.once.mem_iff.mpr hh)
      have hlater := (ho.tree.later p _ hchild).1
      exact (ih p.number hlater hp).tail hchild

/-- Going down an outline comes to an end. -/
theorem wellFounded_children (ho : o.Planted) :
    WellFounded fun c p : Handle => c ∈ o.children p := by
  refine Subrelation.wf (r := fun c p : Handle => o.size - c.number < o.size - p.number) ?_
    (measure fun h : Handle => o.size - h.number).wf
  intro c p hchild
  obtain ⟨hlater, hc⟩ := ho.tree.later p c hchild
  have hsize := mem_handles_iff.mp hc
  show o.size - c.number < o.size - p.number
  omega

/-! ## Reading the transitions -/

theorem transitionsFrom_eq (ho : o.Planted) (h : Handle) :
    o.transitionsFrom h =
      (o.branch h).transition?.toList ++ (o.children h).flatMap o.transitionsFrom := by
  have hunder : (o.under h).transitions = (o.children h).flatMap o.transitionsFrom := by
    by_cases hh : h ∈ o.handles
    · obtain ⟨b, below, beside, hnode⟩ := ho.exists_node hh
      rw [children, hnode.under_eq ho.nodup]
      exact hnode.down.transitions_eq ho.nodup
    · rw [ho.children_eq_nil hh, under]
      cases hfind : o.find? h.number with
      | none => rfl
      | some e =>
        have hmem := mem_numbers_of_find? hfind
        rw [ho.mem_numbers_iff, ← mem_handles_iff] at hmem
        exact absurd hmem hh
  rw [transitionsFrom, hunder]

theorem transitionsFrom_root (ho : o.Planted) : o.transitionsFrom Handle.root = o.transitions := by
  rw [Inside.whole.transitions_eq ho.nodup, ho.row, List.flatMap_singleton]

theorem perm_transitionsFrom_root (ho : o.Planted) :
    (o.transitionsFrom Handle.root).Perm
      (o.handles.filterMap fun h => (o.branch h).transition?) := by
  rw [ho.transitionsFrom_root, Inside.whole.transitions_eq_filterMap ho.nodup]
  exact ho.perm_preorder.filterMap _

theorem length_transitionsFrom_root (ho : o.Planted) :
    (o.transitionsFrom Handle.root).length =
      o.handles.countP fun h => (o.branch h).isComplete := by
  rw [ho.perm_transitionsFrom_root.length_eq, List.length_filterMap_eq_countP]
  simp only [Branch.isSome_transition?]

theorem infix_transitionsFrom_of_mem (ho : o.Planted) {p c : Handle} (hc : c ∈ o.children p) :
    o.transitionsFrom c <:+: o.transitionsFrom p := by
  obtain ⟨before, after, hchildren⟩ := List.append_of_mem hc
  rw [ho.transitionsFrom_eq p, hchildren, List.flatMap_append, List.flatMap_cons,
    ← List.append_assoc, ← List.append_assoc]
  exact List.infix_append _ _ _

theorem infix_transitionsFrom_root (ho : o.Planted) {h : Handle} (hh : h ∈ o.handles) :
    o.transitionsFrom h <:+: o.transitionsFrom Handle.root := by
  have hpath := ho.reached hh
  clear hh
  induction hpath with
  | refl => exact List.infix_refl _
  | tail _ hchild ih => exact (ho.infix_transitionsFrom_of_mem hchild).trans ih

/-! ## Adding transitions -/

section Add

variable {h : Handle}

theorem handles_spawn (ho : o.Planted) (hh : h ∈ o.handles) (b : Branch σ ε) :
    (o.spawn h b).2.handles = o.handles ++ [(o.spawn h b).1] := by
  rw [handles, ho.size_spawn hh, List.range_succ, List.map_append]
  rfl

/-- A new branch adds its transition, if it has one. -/
theorem perm_transitionsFrom_spawn (ho : o.Planted) (hh : h ∈ o.handles) (b : Branch σ ε) :
    ((o.spawn h b).2.transitionsFrom Handle.root).Perm
      (o.transitionsFrom Handle.root ++ b.transition?.toList) := by
  have hold : o.handles.filterMap (fun i => ((o.spawn h b).2.branch i).transition?) =
      o.handles.filterMap fun i => (o.branch i).transition? := by
    apply List.filterMap_congr
    intro i hi
    have hne : i ≠ (o.spawn h b).1 := fun heq => spawned_notMem_handles o h b (heq ▸ hi)
    rw [ho.branch_spawn hh, if_neg hne]
  have hnew : [(o.spawn h b).1].filterMap (fun i => ((o.spawn h b).2.branch i).transition?) =
      b.transition?.toList := by
    rw [List.filterMap_cons, ho.branch_spawn hh, if_pos rfl]
    cases b.transition? <;> rfl
  have hall := (ho.spawn h b).perm_transitionsFrom_root
  rw [ho.handles_spawn hh, List.filterMap_append, hold, hnew] at hall
  exact hall.trans (ho.perm_transitionsFrom_root.symm.append_right _)

/-- The transitions of all branches are those of the others, and that of the branch. -/
theorem perm_filterMap_transition? (ho : o.Planted) (hh : h ∈ o.handles) :
    (o.transitionsFrom Handle.root).Perm
      ((o.handles.erase h).filterMap (fun i => (o.branch i).transition?) ++
        (o.branch h).transition?.toList) := by
  refine ho.perm_transitionsFrom_root.trans ?_
  refine ((List.perm_cons_erase hh).filterMap _).trans ?_
  rw [List.filterMap_cons]
  cases (o.branch h).transition? with
  | none =>
    rw [Option.toList_none, List.append_nil]
  | some t => exact (List.perm_append_singleton t _).symm

/-- A branch that had no transition adds the one that it is given. -/
theorem perm_transitionsFrom_revise (ho : o.Planted) (hh : h ∈ o.handles)
    (hnone : (o.branch h).transition? = none) (f : Branch σ ε → Branch σ ε) :
    ((o.revise h f).2.transitionsFrom Handle.root).Perm
      (o.transitionsFrom Handle.root ++ (f (o.branch h)).transition?.toList) := by
  have hothers : (o.handles.erase h).filterMap (fun i => ((o.revise h f).2.branch i).transition?) =
      (o.handles.erase h).filterMap fun i => (o.branch i).transition? := by
    apply List.filterMap_congr
    intro i hi
    have hne : i ≠ h := ((nodup_handles o).mem_erase_iff.mp hi).1
    rw [ho.branch_revise hh, if_neg hne]
  have hbefore := ho.perm_filterMap_transition? hh
  rw [hnone, Option.toList_none, List.append_nil] at hbefore
  have hafter := (ho.revise h f).perm_filterMap_transition? (handles_revise o h f ▸ hh)
  rw [handles_revise, hothers, ho.branch_revise hh, if_pos rfl] at hafter
  exact hafter.trans (hbefore.symm.append_right _)

end Add

end Planted
end Outline
end Turnstile
