import Turnstile.Proofs.Machine.Passing

/-!
# What an outcome tells of the machine

A run that does not fail leaves the machine in a state that it does not pass through, and
its status says which: it has finished in its first step, without a transition, or all its
steps have made transitions and the flags of the state tell the rest (`settled_of_run`).

A handler is told of the end of a run by a call of its own.  That this call is made once
when a run has finished, and not at all when it has not, is said by putting any other call
in its place.
-/

namespace Turnstile

variable {σ ε : Type}

/-! ## Being told of the end -/

theorem Handler.answers_with_finished (h : Handler σ ε) (finished : σ → σ) (event : Option ε)
    (x : σ) (ts : List (Transition σ ε)) :
    answers { h with finished } event x ts = h.answers event x ts := by
  induction ts with
  | nil => rfl
  | cons t ts ih =>
    rw [answers, answers, ih]
    rfl

theorem Call.makeAll_with_finished (h : Handler σ ε) (finished : σ → σ) (t : Transition σ ε)
    (event : Option ε) (calls : List (Call σ ε)) (x : σ) :
    makeAll { h with finished } t event calls x = makeAll h t event calls x := by
  induction calls generalizing x with
  | nil => rfl
  | cons call calls ih =>
    rw [makeAll, makeAll]
    simp only [ih]
    rfl

namespace Session

variable {h : Handler σ ε} {clock : Nat → Instant} {event : Option ε} {s s' : Session σ ε}

theorem told_with_finished (h : Handler σ ε) (finished : σ → σ) (event : Option ε)
    (s : Session σ ε) : s.told { h with finished } event = s.told h event := by
  rw [told, told, Handler.answers_with_finished]
  rfl

/-- A step that does not come to the end of a run has no use for being told of it. -/
theorem Stepped.with_finished {now : Instant} {r : Except Fault StepResult}
    (hs : Stepped h now event s r s') (hne : ∀ name, r ≠ .ok (.finished name))
    (finished : σ → σ) : Stepped { h with finished } now event s r s' := by
  have htold := told_with_finished h finished event s
  cases hs with
  | unknown hname => exact htold ▸ .unknown hname
  | stuck hknown hopen hstate => exact htold ▸ .stuck hknown hopen hstate
  | finished hknown hopen hstate => exact absurd rfl (hne _)
  | ambiguous hknown hopen => exact htold ▸ .ambiguous hknown hopen
  | lost hknown hopen htarget => exact htold ▸ .lost hknown hopen htarget
  | moved hknown hopen htarget hcalls =>
    refine .moved hknown hopen htarget ?_
    rw [htold, Call.makeAll_with_finished, hcalls]

theorem runFrom_with_finished {taken budget : Nat} {r : Except Fault Outcome}
    (hrun : runFrom h clock event taken budget s = some (r, s'))
    (hne : ∀ o, r = .ok o → o.status ≠ .finished) (finished : σ → σ) :
    runFrom { h with finished } clock event taken budget s = some (r, s') := by
  induction budget generalizing taken s with
  | zero => simp [runFrom] at hrun
  | succ budget ih =>
    rw [runFrom_succ] at hrun
    rcases hstep : s.step h (clock taken) event with ⟨result, s₁⟩
    rw [hstep] at hrun
    have hresult : ∀ name, result ≠ .ok (.finished name) := by
      rintro name rfl
      obtain ⟨rfl, -⟩ := Prod.mk.inj (Option.some.inj hrun)
      exact hne _ rfl rfl
    have hsame := step_of_stepped ((stepped_of_step hstep).with_finished hresult finished)
    rw [runFrom_succ, hsame]
    rcases Option.or_eq_some_iff.mp hrun with hlast | ⟨hgo, hrest⟩
    · exact Option.or_eq_some_iff.mpr (.inl hlast)
    · exact Option.or_eq_some_iff.mpr (.inr ⟨hgo, ih hrest⟩)

/-! ## Outcomes -/

/-- What an outcome of a run tells of the sessions before and behind it.  The run has
finished just when its first step found no transition open, and then the machine is as it
was.  Otherwise each of its steps has made a transition. -/
structure Settled (h : Handler σ ε) (clock : Nat → Instant) (event : Option ε) (budget : Nat)
    (s : Session σ ε) (o : Outcome) (s' : Session σ ε) : Prop where
  state : o.state = s'.machine.state.name
  resting : ¬ (s'.machine.state.isTransient = true ∧ s'.machine.state.isFinal = false)
  suspended_iff : o.status = .suspended ↔ s'.machine.state.isFinal = false
  canEnd : o.status = .final ∨ o.status = .finished → s'.machine.canEnd = true
  finished_iff : o.status = .finished ↔ s.opened h event = []
  still : o.status = .finished → o.steps = 1 ∧ s'.machine = s.machine
  /-- Whatever is to be done at the end of a run is done once, behind the survey, when the
  run has finished, and not at all when it has not. -/
  told : ∀ finished : σ → σ,
    s.run { h with finished } clock event budget =
      some (.ok o, if o.status = .finished
        then { s with memory := finished (s.told h event).memory } else s')
  committed : o.status ≠ .finished →
    ∃ results, s.steps h clock event 0 o.steps = (results, s') ∧
      ∀ result ∈ results, ∃ source target, result = .ok (.moved source target none)
  recorded : o.status ≠ .finished → s.machine.history.limit = none →
    s'.machine.history.size = s.machine.history.size + o.steps

theorem opened_ne_nil_of_moved {now : Instant} {source target : String} {fault : Option Fault}
    (hstep : s.step h now event = (.ok (.moved source target fault), s')) :
    s.opened h event ≠ [] := by
  obtain ⟨t, hopen, -⟩ := exists_opened_of_moved hstep
  rw [hopen]
  exact List.cons_ne_nil _ _

/-- All steps of a run that rests in a state have made a transition. -/
theorem Runs.moved {taken : Nat} {results : List (Except Fault StepResult)}
    {r : Except Fault Outcome} (hr : Runs h clock event taken s results r s') {o : Outcome}
    (ho : r = .ok o) (hne : o.status ≠ .finished) :
    ∀ result ∈ results, ∃ source target, result = .ok (.moved source target none) := by
  induction hr with
  | last hstep hend =>
    subst ho
    rcases ending_eq_ok_cases hend with ⟨name, -, rfl⟩ | ⟨source, target, rfl, -, -⟩
    · exact absurd rfl hne
    · intro result hmem
      exact ⟨source, target, List.mem_singleton.mp hmem⟩
  | more hstep hgo hrest ih =>
    obtain ⟨hmoved, -⟩ := ending_eq_none_iff.mp hgo
    exact List.forall_mem_cons.mpr ⟨hmoved, ih ho⟩

theorem length_steps (h : Handler σ ε) (clock : Nat → Instant) (event : Option ε)
    (taken n : Nat) (s : Session σ ε) :
    (s.steps h clock event taken n).1.length = n := by
  induction n generalizing taken s with
  | zero => rfl
  | succ n ih => rw [steps_succ, List.length_cons, ih]

/-- Without a bound, every step that makes a transition adds one passage. -/
theorem size_of_steps {n : Nat} {results : List (Except Fault StepResult)}
    (hsteps : s.steps h clock event 0 n = (results, s'))
    (hmoved : ∀ result ∈ results, ∃ source target, result = .ok (.moved source target none))
    (hl : s.machine.history.limit = none) :
    s'.machine.history.size = s.machine.history.size + n := by
  obtain ⟨added, hpassages, hends⟩ := exists_added_of_steps h clock event 0 n hl
  have hlength := length_steps h clock event 0 n s
  rw [hsteps] at hpassages hends hlength
  have hall : (results.filterMap passed).length = results.length := by
    refine List.filterMap_length_eq_length.mpr fun result hmem => ?_
    obtain ⟨source, target, rfl⟩ := hmoved result hmem
    rfl
  rw [← hends, List.length_map, hlength] at hall
  rw [← History.length_passages, ← History.length_passages, hpassages, List.length_append, hall]

/-- A run can only finish in its first step, since a state in which it may finish is none
that it passes through. -/
theorem Passing.eq_of_finished {n : Nat} {s₁ : Session σ ε} {name : String}
    (hpast : Passing h clock event 0 n s s₁)
    (hlast : s₁.step h (clock n) event = (.ok (.finished name), s')) : n = 0 ∧ s₁ = s := by
  cases hpast with
  | refl => exact ⟨rfl, rfl⟩
  | step hstep hadv hrest =>
    have hadv := (Passing.step hstep hadv hrest).advances (Nat.succ_ne_zero _)
    rw [State.advances, Bool.and_eq_true, Bool.not_eq_true'] at hadv
    cases stepped_of_step hlast with
    | finished hknown hopen hstate =>
      rw [hadv.2] at hstate
      exact absurd hstate Bool.false_ne_true

theorem settled_of_finished {name : String}
    (hstep : s.step h (clock 0) event = (.ok (.finished name), s')) (budget : Nat) :
    Settled h clock event (budget + 1) s { state := name, steps := 1, status := .finished }
      s' := by
  cases stepped_of_step hstep with
  | finished hknown hopen hstate =>
    have hflags := hstate
    rw [Bool.and_eq_true, Bool.not_eq_true'] at hflags
    exact
      { state := rfl
        resting := fun hpassed => Bool.false_ne_true (hpassed.2.symm.trans hflags.1)
        suspended_iff := by simp [hflags.1]
        canEnd := fun _ => hflags.1
        finished_iff := by simp [hopen]
        still := fun _ => ⟨rfl, rfl⟩
        told := by
          intro finished
          have hfinish : Stepped { h with finished } (clock 0) event s _ _ :=
            .finished hknown hopen hstate
          rw [told_with_finished] at hfinish
          rw [run, runFrom_succ, step_of_stepped hfinish]
          rfl
        committed := fun hne => absurd rfl hne
        recorded := fun hne => absurd rfl hne }

theorem settled_of_resting {budget n : Nat} (hadv : s'.machine.state.advances = false)
    (hrun : s.run h clock event budget =
      some (.ok (Outcome.restingIn s'.machine.state (n + 1)), s')) :
    Settled h clock event budget s (Outcome.restingIn s'.machine.state (n + 1)) s' := by
  have hne : (Outcome.restingIn s'.machine.state (n + 1)).status ≠ .finished := by
    cases hf : s'.machine.state.isFinal <;> simp [Outcome.restingIn, hf]
  obtain ⟨results, hruns⟩ := exists_runs_of_runFrom hrun
  have hmoved := hruns.moved rfl hne
  have hsteps := hruns.steps_eq
  rw [← Nat.zero_add results.length, ← hruns.steps_of_eq_ok rfl] at hsteps
  have hopened : s.opened h event ≠ [] := by
    obtain ⟨source, target, hfirst⟩ := hmoved _ hruns.mem_first
    exact opened_ne_nil_of_moved (Prod.ext hfirst rfl)
  exact
    { state := rfl
      resting := by
        rintro ⟨htransient, hfinal⟩
        rw [State.advances, htransient, hfinal] at hadv
        cases hadv
      suspended_iff := by
        cases hf : s'.machine.state.isFinal <;> simp [Outcome.restingIn, hf]
      canEnd := by
        cases hf : s'.machine.state.isFinal <;> simp [Outcome.restingIn, Machine.canEnd, hf]
      finished_iff := ⟨fun heq => absurd heq hne, fun hnil => absurd hnil hopened⟩
      still := fun heq => absurd heq hne
      told := by
        intro finished
        rw [if_neg hne]
        exact runFrom_with_finished hrun (fun o ho => Except.ok.inj ho ▸ hne) finished
      committed := fun _ => ⟨results, hsteps, hmoved⟩
      recorded := fun _ hl => size_of_steps hsteps hmoved hl }

/-! ## Main statement -/

/-- What the outcome of a run tells. -/
theorem settled_of_run {budget : Nat} {o : Outcome}
    (hrun : s.run h clock event budget = some (.ok o, s')) :
    Settled h clock event budget s o s' := by
  obtain ⟨n, s₁, last, hpast, hlast, hend⟩ := exists_last_of_run hrun
  rcases ending_eq_ok_cases hend with ⟨name, rfl, rfl⟩ | ⟨source, target, -, hadv, rfl⟩
  · -- a step that finishes a run is its first one, so there is nothing behind it
    obtain ⟨rfl, rfl⟩ := hpast.eq_of_finished hlast
    cases budget with
    | zero => simp [run, runFrom] at hrun
    | succ budget => exact settled_of_finished hlast budget
  · exact settled_of_resting hadv hrun

theorem settled_visitor :
    run .porter (fun _ => .noon) none 2 { machine := .visitor, memory := false } =
      some (.ok { state := "room", steps := 2, status := .final },
        { machine := .guest, memory := false }) ∧
    Machine.guest.canEnd = true ∧
    Machine.guest.history.size = Machine.visitor.history.size + 2 ∧
    ∀ finished : Bool → Bool,
      run { Handler.porter with finished } (fun _ => .noon) none 2
          { machine := .visitor, memory := false } =
        some (.ok { state := "room", steps := 2, status := .final },
          { machine := .guest, memory := false }) := by
  have hrun : run .porter (fun _ => .noon) none 2 { machine := .visitor, memory := false } =
      some (.ok { state := "room", steps := 2, status := .final },
        { machine := .guest, memory := false }) := rfl
  have hsettled := settled_of_run hrun
  exact ⟨hrun, hsettled.canEnd (.inl rfl), hsettled.recorded (by decide) rfl, hsettled.told⟩

end Session
end Turnstile
