import Turnstile.Proofs.Machine.Passing
import Turnstile.Proofs.Machine.Record

/-!
# What a failed run tells of the machine

A run fails with the one step behind the states that it has passed through.  The step may
be refused, and then it leaves the machine where the steps before it had led, or it may be
made and be at fault in its calls.  Which of the two it was can be told from the kind of
the fault alone (`Reachable.of_run_eq_error`).
-/

namespace Turnstile

variable {σ ε : Type}

namespace Session

variable {h : Handler σ ε} {clock : Nat → Instant} {event : Option ε} {s s' : Session σ ε}

/-- The step is refused: it fails, and the machine is left as it was. -/
structure Refused (h : Handler σ ε) (now : Instant) (event : Option ε) (s : Session σ ε)
    (fault : Fault) (s' : Session σ ε) : Prop where
  step : s.step h now event = (.error fault, s')
  machine : s'.machine = s.machine

/-- The step makes a transition and puts a fault off until then. -/
structure Deferred (h : Handler σ ε) (now : Instant) (event : Option ε) (s : Session σ ε)
    (t : Transition σ ε) (fault : Fault) (s' : Session σ ε) : Prop where
  step : s.step h now event = (.ok (.moved t.source t.target (some fault)), s')
  possible : t ∈ s.machine.possible
  latest : s'.machine.latest = some t
  target : s'.machine.state.name = t.target

/-- What the kind of a fault tells of the step that has ended a run with it. -/
def Failing (h : Handler σ ε) (now : Instant) (event : Option ε) (s : Session σ ε)
    (fault : Fault) (s' : Session σ ε) : Prop :=
  match fault with
  | .stuck name | .ambiguous name _ =>
    Refused h now event s fault s' ∧ name = s'.machine.state.name
  | .unknownCallable .condition name =>
    Refused h now event s fault s' ∧
      ∃ t ∈ s'.machine.possible, t.condition = some (.named name)
  | .unknownCallable .action name =>
    ∃ t, Deferred h now event s t fault s' ∧ t.action = some (.named name)
  | .unknownCallable .hook name =>
    ∃ t, Deferred h now event s t fault s' ∧ .named name ∈ s'.machine.chart.hooks
  | .failed source target _ =>
    ∃ t, Deferred h now event s t fault s' ∧ t.source = source ∧ t.target = target
  | .noInitialState | .severalInitialStates _ | .unknownState _ => False

theorem failing_of_error {now : Instant} {fault : Fault}
    (hstep : s.step h now event = (.error fault, s')) (hc : s.machine.chart.WellFormed) :
    Failing h now event s fault s' := by
  cases stepped_of_step hstep with
  | unknown hname =>
    have hcondition := exists_condition_of_unknown? hname
    exact ⟨⟨hstep, rfl⟩, hcondition⟩
  | stuck | ambiguous => exact ⟨⟨hstep, rfl⟩, rfl⟩
  | lost hknown hopen htarget => exact absurd htarget (state?_target_ne_none hc hopen)

theorem failing_of_deferred {now : Instant} {source target : String} {fault : Fault}
    (hstep : s.step h now event = (.ok (.moved source target (some fault)), s')) :
    Failing h now event s fault s' := by
  cases stepped_of_step hstep with
  | @moved t state _ memory hknown hopen htarget hcalls =>
    have hdeferred : Deferred h now event s t fault
        { machine := s.machine.commit t state now, memory } :=
      ⟨hstep, mem_possible_of_opened hopen, rfl, Chart.name_of_state? htarget⟩
    obtain ⟨call, hcall, hfault⟩ :=
      Call.exists_canEndIn_of_makeAll (congrArg Prod.fst hcalls)
    rcases Call.mem_calls_iff.mp hcall with ⟨phase, k, hk, rfl⟩ | ⟨a, ha, rfl⟩
    · cases hfault with
      | hook phase name => exact ⟨t, hdeferred, hk⟩
    · cases hfault with
      | action name => exact ⟨t, hdeferred, ha⟩
      | failed a failure => exact ⟨t, hdeferred, rfl, rfl⟩

end Session

/-! ## Main statement -/

namespace Blueprint

variable {b : Blueprint σ ε}

/-- A run that fails has passed through states by steps that were made without a fault, and
the kind of its fault tells what has become of the step behind them. -/
theorem Reachable.of_run_eq_error (hb : b.Reachable) {s s' : Session σ ε}
    (hm : b.Yields s.machine) {h : Handler σ ε} {clock : Nat → Instant} {event : Option ε}
    {budget : Nat} {fault : Fault}
    (hrun : s.run h clock event budget = some (.error fault, s')) :
    ∃ n s₁, Session.Passing h clock event 0 n s s₁ ∧
      Session.Failing h (clock n) event s₁ fault s' := by
  obtain ⟨n, s₁, last, hpast, hlast, hend⟩ := Session.exists_last_of_run hrun
  refine ⟨n, s₁, hpast, ?_⟩
  rcases (Session.ending_eq_error_iff hend fault).mp rfl with rfl | ⟨source, target, rfl⟩
  · have hc := hb.wellFormed
    rw [← hm.chart_eq, ← hpast.chart_eq] at hc
    exact Session.failing_of_error hlast hc
  · exact Session.failing_of_deferred hlast

/-- The porch with machines that start outside. -/
def porch : Blueprint (List String) String := { chart := Chart.porch, factory := Chart.start }

theorem porch_reachable : porch.Reachable :=
  ⟨[.declareState "outside" { initial := true }, .declareState "porch" { transient := true },
    .declareState "inside" { final := true }, .registerHook (.named "bell"),
    .define fun root => do
      let way ← root.startAt "outside"
      let way ← way.goTo "porch"
      discard (way.doing (.infallible fun _ calls => calls ++ [namelessLabel])),
    .declareTransition { source := "porch", target := "garden" },
    .declareTransition { source := "porch", target := "inside", action := some (.named "knock") }],
    rfl⟩

theorem porch_of_run_eq_error :
    porch.Reachable ∧ porch.Yields .newcomer ∧
      ∃ s', Session.run .steward (fun _ => .noon) none 2
          { machine := .newcomer, memory := [] } =
            some (.error (.unknownCallable .hook "bell"), s') ∧
        ∃ n s₁, Session.Passing .steward (fun _ => .noon) none 0 n
            { machine := .newcomer, memory := [] } s₁ ∧
          ∃ t, Session.Deferred .steward .noon none s₁ t (.unknownCallable .hook "bell") s' := by
  have hnewcomer : porch.Yields .newcomer := .start rfl
  have hrun : ∃ s', Session.run .steward (fun _ => .noon) none 2
      { machine := .newcomer, memory := [] } =
        some (.error (.unknownCallable .hook "bell"), s') := ⟨_, rfl⟩
  obtain ⟨s', hrun⟩ := hrun
  obtain ⟨n, s₁, hpast, t, hdeferred, -⟩ :=
    porch_reachable.of_run_eq_error (s := { machine := .newcomer, memory := [] }) hnewcomer hrun
  exact ⟨porch_reachable, hnewcomer, s', hrun, n, s₁, hpast, t, hdeferred⟩

end Blueprint
end Turnstile
