import Turnstile.Proofs.Reachable

/-!
# What a run does before its last step

All steps of a run but the last make a transition without a fault and lead into a state
that the run passes through.  `Passing` says so of a row of steps.  Whatever ends a run
happens in the one step behind such a row (`Runs.exists_last`), and a run that is out of
budget has made nothing but such a row (`exists_passing_of_runFrom_eq_none`).
-/

namespace Turnstile.Session

variable {σ ε : Type}

/-- A run that has made `taken` steps makes `n` more and passes through the states to
which they lead. -/
inductive Passing (h : Handler σ ε) (clock : Nat → Instant) (event : Option ε) :
    (taken n : Nat) → Session σ ε → Session σ ε → Prop
  | refl {taken : Nat} {s : Session σ ε} : Passing h clock event taken 0 s s
  | step {taken n : Nat} {s s₁ s' : Session σ ε} {source target : String}
      (hstep : s.step h (clock taken) event = (.ok (.moved source target none), s₁))
      (hadv : s₁.machine.state.advances = true)
      (hrest : Passing h clock event (taken + 1) n s₁ s') :
      Passing h clock event taken (n + 1) s s'

variable {h : Handler σ ε} {clock : Nat → Instant} {event : Option ε} {taken n : Nat}
  {s s' : Session σ ε}

namespace Passing

theorem advances (hp : Passing h clock event taken n s s') (hn : n ≠ 0) :
    s'.machine.state.advances = true := by
  induction hp with
  | refl => exact absurd rfl hn
  | @step taken n s s₁ s' source target hstep hadv hrest ih =>
    cases hrest with
    | refl => exact hadv
    | step => exact ih (Nat.succ_ne_zero _)

theorem chart_eq (hp : Passing h clock event taken n s s') :
    s'.machine.chart = s.machine.chart := by
  induction hp with
  | refl => rfl
  | step hstep hadv hrest ih => rw [ih, (stepped_of_step hstep).chart_eq]

end Passing

/-! ## The last step -/

/-- A run comes to an outcome when a step finishes it or makes a transition into a state
that it does not pass through. -/
theorem ending_eq_ok_cases {count : Nat} {state : State} {last : Except Fault StepResult}
    {o : Outcome} (hend : ending count state last = some (.ok o)) :
    (∃ name, last = .ok (.finished name) ∧
        o = { state := name, steps := count, status := .finished }) ∨
      ∃ source target, last = .ok (.moved source target none) ∧ state.advances = false ∧
        o = Outcome.restingIn state count := by
  match last with
  | .error fault => simp [ending] at hend
  | .ok (.finished name) => exact .inl ⟨name, rfl, (Except.ok.inj (Option.some.inj hend)).symm⟩
  | .ok (.moved source target (some fault)) => simp [ending] at hend
  | .ok (.moved source target none) =>
    rw [ending] at hend
    split at hend
    · simp at hend
    · next hadv =>
      have ho := (Except.ok.inj (Option.some.inj hend)).symm
      exact .inr ⟨source, target, rfl, Bool.eq_false_iff.mpr hadv, ho⟩

/-- A run is a row of steps that pass through states, and one more step that ends it. -/
theorem Runs.exists_last {results : List (Except Fault StepResult)} {r : Except Fault Outcome}
    (hr : Runs h clock event taken s results r s') :
    ∃ n s₁ last, Passing h clock event taken n s s₁ ∧ results.length = n + 1 ∧
      s₁.step h (clock (taken + n)) event = (last, s') ∧
      ending (taken + n + 1) s'.machine.state last = some r := by
  induction hr with
  | last hstep hend => exact ⟨0, _, _, .refl, rfl, hstep, hend⟩
  | @more taken s s₁ s' first rest r hstep hgo hrest ih =>
    obtain ⟨⟨source, target, rfl⟩, hadv⟩ := ending_eq_none_iff.mp hgo
    obtain ⟨n, s₂, last, hpast, hlength, hlast, hend⟩ := ih
    have hcount : taken + 1 + n = taken + (n + 1) := by omega
    rw [hcount] at hlast hend
    exact ⟨n + 1, s₂, last, .step hstep hadv hpast, congrArg (· + 1) hlength, hlast, hend⟩

theorem Runs.mem_first {results : List (Except Fault StepResult)} {r : Except Fault Outcome}
    (hr : Runs h clock event taken s results r s') :
    (s.step h (clock taken) event).1 ∈ results := by
  cases hr with
  | last hstep hend =>
    rw [hstep]
    exact List.mem_cons_self
  | more hstep hgo hrest =>
    rw [hstep]
    exact List.mem_cons_self

theorem exists_last_of_run {budget : Nat} {r : Except Fault Outcome}
    (hrun : s.run h clock event budget = some (r, s')) :
    ∃ n s₁ last, Passing h clock event 0 n s s₁ ∧
      s₁.step h (clock n) event = (last, s') ∧
      ending (n + 1) s'.machine.state last = some r := by
  obtain ⟨results, hruns⟩ := exists_runs_of_runFrom hrun
  obtain ⟨n, s₁, last, hpast, -, hlast, hend⟩ := hruns.exists_last
  rw [Nat.zero_add] at hlast hend
  exact ⟨n, s₁, last, hpast, hlast, hend⟩

theorem exists_passing_of_runFrom_eq_none {budget : Nat}
    (hrun : runFrom h clock event taken budget s = none) :
    ∃ s', Passing h clock event taken budget s s' := by
  induction budget generalizing taken s with
  | zero => exact ⟨s, .refl⟩
  | succ budget ih =>
    rcases hstep : s.step h (clock taken) event with ⟨first, s₁⟩
    rw [runFrom_succ, hstep, Option.or_eq_none_iff, Option.map_eq_none_iff] at hrun
    obtain ⟨hgo, hrest⟩ := hrun
    obtain ⟨⟨source, target, rfl⟩, hadv⟩ := ending_eq_none_iff.mp hgo
    obtain ⟨s', hpast⟩ := ih hrest
    exact ⟨s', .step hstep hadv hpast⟩

end Turnstile.Session
