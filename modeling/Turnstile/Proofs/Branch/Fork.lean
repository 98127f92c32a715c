import Turnstile.Proofs.Branch.Otherwise

/-!
# Building a fork

A fork leads from a state to one of two others, to the first if its condition holds and to
the second if not, or the other way around.  It is built by calls on handles
(`Handle.fork`).  Whatever has been built before, none of these calls is refused on a branch
that has no source, and the two transitions of the fork are added to those that are there
(`Handle.exists_run_fork`).
-/

namespace Turnstile

variable {σ ε : Type}

namespace Handle

/-- Adds a branch that goes the same way if the condition holds, or unless it holds. -/
def guard (h : Handle) (negate : Bool) (c : Condition σ ε) : Build σ ε Handle :=
  if negate then h.onlyUnless c else h.onlyIf c

/-- Leads from a state to the first if the condition holds, or unless it holds, and
otherwise to the second. -/
def fork (h : Handle) (source : String) (negate : Bool) (c : Condition σ ε)
    (first second : String) : Build σ ε Unit := do
  let start ← h.startAt source
  let guarded ← start.guard negate c
  let taken ← guarded.goTo first
  let other ← taken.otherwise
  let _ ← other.goTo second
  return ()

end Handle

/-- The transitions of a fork. -/
def Transition.forked (source : String) (negate : Bool) (c : Condition σ ε)
    (first second : String) : List (Transition σ ε) :=
  [{ source, target := first, condition := c, negate },
    { source, target := second, condition := c, negate := !negate }]

theorem Transition.ends_of_mem_forked {source first second : String} {negate : Bool}
    {c : Condition σ ε} {t : Transition σ ε} (ht : t ∈ forked source negate c first second) :
    t.source = source ∧ (t.target = first ∨ t.target = second) := by
  rw [forked, List.mem_pair] at ht
  rcases ht with rfl | rfl
  · exact ⟨rfl, .inl rfl⟩
  · exact ⟨rfl, .inr rfl⟩

/-- The build is not refused on the outline.  It leads to the branch of a handle and adds
transitions to those that are there. -/
structure BuildT.Adds (x : Build σ ε Handle) (o : Outline σ ε) (b : Branch σ ε)
    (ts : List (Transition σ ε)) (i : Handle) (o' : Outline σ ε) : Prop where
  run : Id.run (x.runOn o) = (.ok i, o')
  planted : o'.Planted
  mem : i ∈ o'.handles
  branch : o'.branch i = b
  transitions : (o'.transitionsFrom Handle.root).Perm (o.transitionsFrom Handle.root ++ ts)

namespace Handle

variable {o : Outline σ ε} {h : Handle}

theorem exists_adds_of_spawn (ho : o.Planted) (hh : h ∈ o.handles) {b : Branch σ ε}
    {x : Build σ ε Handle} (hx : Id.run (x.runOn o) = (.ok (o.spawn h b).1, (o.spawn h b).2)) :
    ∃ i o', BuildT.Adds x o b b.transition?.toList i o' := by
  refine ⟨_, _, hx, ho.spawn h b, ho.spawned_mem_handles hh b, ?_,
    ho.perm_transitionsFrom_spawn hh b⟩
  rw [ho.branch_spawn hh, if_pos rfl]

/-- A new branch without a target can be led on, and then adds its transition. -/
theorem exists_adds_goTo (ho : o.Planted) (hh : h ∈ o.handles) {b : Branch σ ε}
    (htarget : b.target = none) {x : Build σ ε Handle}
    (hx : Id.run (x.runOn o) = (.ok (o.spawn h b).1, (o.spawn h b).2)) (name : String) :
    let led : Branch σ ε := { b with target := some name }
    ∃ i o', BuildT.Adds (x >>= fun i => i.goTo name) o led led.transition?.toList i o' := by
  intro led
  obtain ⟨i, o₁, hspawned⟩ := exists_adds_of_spawn ho hh hx
  have hbranch := hspawned.branch
  have hnone : b.transition? = none := by
    rw [Branch.transition?, htarget]
    cases b.source <;> rfl
  have hadded := hspawned.transitions
  rw [hnone, Option.toList_none, List.append_nil] at hadded
  rw [← hbranch] at htarget hnone
  refine ⟨i, (o₁.revise i fun b => { b with target := some name }).2, ?_,
    hspawned.planted.revise i _, ?_, ?_, ?_⟩
  · rw [BuildT.run_bind_of_run hspawned.run, goTo, BuildT.run_call, Outline.goTo, htarget]
    rfl
  · rw [Outline.handles_revise]
    exact hspawned.mem
  · rw [hspawned.planted.branch_revise hspawned.mem, if_pos rfl, hbranch]
  · have hled := hspawned.planted.perm_transitionsFrom_revise hspawned.mem hnone
      fun b => { b with target := some name }
    rw [hbranch] at hled
    exact hled.trans (hadded.append_right _)

theorem run_startAt (hsource : (o.branch h).source = none) (name : String) :
    Id.run ((h.startAt name : Build σ ε Handle).runOn o) =
      (.ok (o.spawn h { source := name }).1, (o.spawn h { source := name }).2) := by
  rw [startAt, BuildT.run_call, Outline.startAt, hsource]

theorem run_guard (o : Outline σ ε) (h : Handle) (negate : Bool) (c : Condition σ ε) :
    let b : Branch σ ε :=
      { source := (o.branch h).source, target := (o.branch h).target, condition := c, negate }
    Id.run ((h.guard negate c).runOn o) = (.ok (o.spawn h b).1, (o.spawn h b).2) := by
  cases negate <;> rfl

theorem run_otherwise (hc : (o.branch h).condition.isSome = true) :
    Id.run ((h.otherwise : Build σ ε Handle).runOn o) =
      (.ok (o.spawn h (o.branch h).other).1, (o.spawn h (o.branch h).other).2) := by
  rw [otherwise, BuildT.run_call, Outline.otherwise_eq_ok hc]

/-- A fork is never refused on a branch without a source, and adds its two transitions. -/
theorem exists_run_fork (ho : o.Planted) (hh : h ∈ o.handles)
    (hsource : (o.branch h).source = none) (source : String) (negate : Bool) (c : Condition σ ε)
    (first second : String) :
    ∃ o' : Outline σ ε,
      Id.run ((h.fork source negate c first second).runOn o) = (.ok (), o') ∧
      (o'.transitionsFrom Handle.root).Perm
        (o.transitionsFrom Handle.root ++ Transition.forked source negate c first second) := by
  obtain ⟨start, o₁, hstart⟩ := exists_adds_of_spawn ho hh (run_startAt hsource source)
  have hguard := run_guard o₁ start negate c
  rw [hstart.branch] at hguard
  obtain ⟨taken, o₂, htaken⟩ := exists_adds_goTo hstart.planted hstart.mem rfl hguard first
  have hother := run_otherwise (o := o₂) (h := taken) (by rw [htaken.branch]; rfl)
  rw [htaken.branch] at hother
  obtain ⟨other, o₃, hended⟩ := exists_adds_goTo htaken.planted htaken.mem rfl hother second
  have hparts : h.fork source negate c first second = (h.startAt source >>= fun start =>
      (start.guard negate c >>= fun guarded => guarded.goTo first) >>= fun taken =>
      (taken.otherwise >>= fun other => other.goTo second) >>= fun _ => pure ()) := by
    simp only [fork, bind_assoc]
  refine ⟨o₃, ?_, ?_⟩
  · rw [hparts, BuildT.run_bind_of_run hstart.run, BuildT.run_bind_of_run htaken.run,
      BuildT.run_bind_of_run hended.run]
    rfl
  · -- the branch at which the fork starts has no target, and so no transition of its own
    have hopen : ({ source := source } : Branch σ ε).transition? = none := rfl
    have hfirst := hstart.transitions
    rw [hopen, Option.toList_none, List.append_nil] at hfirst
    have hboth := hended.transitions.trans
      ((htaken.transitions.trans (hfirst.append_right _)).append_right _)
    rwa [List.append_assoc] at hboth

end Handle
end Turnstile
