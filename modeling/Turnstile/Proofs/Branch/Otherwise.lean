import Mathlib.Algebra.Ring.Parity
import Turnstile.Handler
import Turnstile.Proofs.Branch.Growth

/-!
# The other case

`otherwise` adds the branch for the case that the condition of a branch fails: the new
branch has the same condition and turns it the other way.  Such calls can follow one
another, with much else built between them, and what the branches say of their condition
stays as it is all the while (`Outline.Alternative.facing`).  The transitions of two of
these branches are therefore open in turn, or at the same times, as the number of calls
between them is odd or even, and a handler that does not know the condition of one does
not know that of the other (`Outline.Facing.eligible`).
-/

namespace Turnstile

open Function

variable {σ ε : Type}

namespace Transition

variable {t t' : Transition σ ε} {c : Condition σ ε}

/-- The condition and which way it is turned are all that counts. -/
theorem eligible_congr (hcondition : t'.condition = t.condition) (hnegate : t'.negate = t.negate)
    (k : Handler σ ε) (event : Option ε) (x : σ) :
    t'.eligible k event x = t.eligible k event x := by
  unfold eligible
  rw [hcondition, hnegate]

/-- Turned the other way, a condition gives the other answer, and is unknown as before. -/
theorem eligible_eq_map_not (hc : t.condition = some c) (hc' : t'.condition = some c)
    (hnegate : t'.negate = !t.negate) (k : Handler σ ε) (event : Option ε) (x : σ) :
    t'.eligible k event x = (t.eligible k event x).map not := by
  simp only [eligible, hc, hc', hnegate]
  cases c.value k event x with
  | none => rfl
  | some holds => cases holds <;> cases t.negate <;> rfl

end Transition

namespace Branch

/-- The branch for the case that the condition of this one fails. -/
def other (b : Branch σ ε) : Branch σ ε :=
  { source := b.source, condition := b.condition, negate := !b.negate }

theorem guard_of_transition? {b : Branch σ ε} {t : Transition σ ε}
    (ht : b.transition? = some t) : t.condition = b.condition ∧ t.negate = b.negate := by
  unfold transition? at ht
  split at ht
  · obtain rfl := Option.some.inj ht
    exact ⟨rfl, rfl⟩
  · cases ht

end Branch

namespace Outline

theorem otherwise_eq_ok {o : Outline σ ε} {i : Handle}
    (hc : (o.branch i).condition.isSome = true) :
    o.otherwise i = .ok (o.spawn i (o.branch i).other) := by
  obtain ⟨c, hc⟩ := Option.isSome_iff_exists.mp hc
  simp only [otherwise, Branch.other, hc]

/-- The branches that calls of `otherwise` have led to, one from another, since `h` was
reached in the outline `o`: after `n` calls they have led to the last handle in the last
outline, while drafts went on in between. -/
inductive Alternative (o : Outline σ ε) (h : Handle) : Nat → Handle → Outline σ ε → Prop
  | self : Alternative o h 0 h o
  | draft {n : Nat} {i : Handle} {o' : Outline σ ε} (hi : Alternative o h n i o')
      (d : Draft σ ε) : Alternative o h n i (d.outlineFrom o')
  | otherwise {n : Nat} {i j : Handle} {o' o'' : Outline σ ε} (hi : Alternative o h n i o')
      (hj : o'.otherwise i = .ok (j, o'')) : Alternative o h (n + 1) j o''

/-- What a branch has in common with one that it was an alternative to: the condition, turned
around once for each call. -/
structure Facing (o : Outline σ ε) (h : Handle) (n : Nat) (i : Handle) (o' : Outline σ ε) :
    Prop where
  planted : o'.Planted
  grown : o.GrowsTo o'
  mem : i ∈ o'.handles
  condition : (o'.branch i).condition = (o.branch h).condition
  negate : (o'.branch i).negate = not^[n] (o.branch h).negate

namespace Facing

variable {o o' o'' : Outline σ ε} {h i j : Handle} {n : Nat}

theorem self (ho : o.Planted) (hh : h ∈ o.handles) : o.Facing h 0 h o where
  planted := ho
  grown := .refl o
  mem := hh
  condition := rfl
  negate := rfl

theorem draft (hf : o.Facing h n i o') (d : Draft σ ε) : o.Facing h n i (d.outlineFrom o') := by
  have hgrown : o'.GrowsTo (d.outlineFrom o') := d.growsTo hf.planted
  have hsettled := hgrown.branch i hf.mem
  exact
    { planted := d.planted_outlineFrom hf.planted
      grown := hf.grown.trans hgrown
      mem := hgrown.handles hf.mem
      condition := hsettled.condition.trans hf.condition
      negate := hsettled.negate.trans hf.negate }

theorem spawn_other (hf : o.Facing h n i o') :
    o.Facing h (n + 1) (o'.spawn i (o'.branch i).other).1 (o'.spawn i (o'.branch i).other).2 := by
  constructor
  case planted => exact hf.planted.spawn i _
  case grown => exact hf.grown.trans (hf.planted.growsTo_spawn i _)
  case mem => exact hf.planted.spawned_mem_handles hf.mem _
  case condition =>
    rw [hf.planted.branch_spawn hf.mem, if_pos rfl]
    exact hf.condition
  case negate =>
    rw [hf.planted.branch_spawn hf.mem, if_pos rfl, Branch.other, hf.negate,
      iterate_succ_apply']

theorem isSome_condition (hf : o.Facing h n i o')
    (hc : (o.branch h).condition.isSome = true) : (o'.branch i).condition.isSome = true := by
  rwa [hf.condition]

theorem otherwise (hf : o.Facing h n i o') (hc : (o.branch h).condition.isSome = true)
    (hj : o'.otherwise i = .ok (j, o'')) : o.Facing h (n + 1) j o'' := by
  rw [otherwise_eq_ok (hf.isSome_condition hc)] at hj
  have hother := hf.spawn_other
  rwa [Except.ok.inj hj] at hother

end Facing

theorem Planted.mem_handles_of_condition {o : Outline σ ε} (ho : o.Planted) {h : Handle}
    (hc : (o.branch h).condition.isSome = true) : h ∈ o.handles := by
  by_contra hh
  rw [ho.branch_eq_of_notMem hh] at hc
  cases hc

theorem Alternative.facing {o o' : Outline σ ε} {h i : Handle} {n : Nat}
    (ha : o.Alternative h n i o') (ho : o.Planted)
    (hc : (o.branch h).condition.isSome = true) : o.Facing h n i o' := by
  induction ha with
  | self => exact .self ho (ho.mem_handles_of_condition hc)
  | draft _ d ih => exact ih.draft d
  | otherwise _ hj ih => exact ih.otherwise hc hj

namespace Facing

variable {o o' : Outline σ ε} {h i : Handle} {n : Nat} {t t' : Transition σ ε}

/-- The next call of `otherwise` is not refused. -/
theorem exists_otherwise (hf : o.Facing h n i o') (hc : (o.branch h).condition.isSome = true) :
    ∃ j o'', o'.otherwise i = .ok (j, o'') :=
  ⟨_, _, otherwise_eq_ok (hf.isSome_condition hc)⟩

/-- After an even number of calls the answers are the same, and after an odd number they are
opposite. -/
theorem eligible (hf : o.Facing h n i o') (hh : h ∈ o.handles)
    (hc : (o.branch h).condition.isSome = true) (ht : (o'.branch h).transition? = some t)
    (ht' : (o'.branch i).transition? = some t') (k : Handler σ ε) (event : Option ε) (x : σ) :
    (Even n → t'.eligible k event x = t.eligible k event x) ∧
      (Odd n → t'.eligible k event x = (t.eligible k event x).map not) := by
  have hsettled := hf.grown.branch h hh
  have hcondition : t.condition = (o.branch h).condition :=
    (Branch.guard_of_transition? ht).1.trans hsettled.condition
  have hnegate : t.negate = (o.branch h).negate :=
    (Branch.guard_of_transition? ht).2.trans hsettled.negate
  have hcondition' : t'.condition = (o.branch h).condition :=
    (Branch.guard_of_transition? ht').1.trans hf.condition
  have hnegate' : t'.negate = not^[n] t.negate := by
    rw [hnegate, ← hf.negate]
    exact (Branch.guard_of_transition? ht').2
  constructor
  · intro hn
    rw [Bool.involutive_not.iterate_even hn] at hnegate'
    exact Transition.eligible_congr (hcondition'.trans hcondition.symm) hnegate' k event x
  · intro hn
    obtain ⟨c, hc⟩ := Option.isSome_iff_exists.mp hc
    rw [Bool.involutive_not.iterate_odd hn] at hnegate'
    exact Transition.eligible_eq_map_not (hcondition.trans hc) (hcondition'.trans hc) hnegate'
      k event x

end Facing
end Outline

end Turnstile
