import Turnstile.Proofs.Reachable

/-!
# What a step comes to

On a machine that can come about, two questions decide a step: which is the first
condition that the handler does not know, and which transitions are open.  The main
statement gives the answer of the step and the session that it leaves for every way in
which the two can be answered.
-/

namespace Turnstile.Blueprint

variable {σ ε : Type} {b : Blueprint σ ε}

/-- A step that finds an unknown condition fails with the first one.  Otherwise it goes by
the open transitions.  If there is none, the run has come to its end in a state that is
final and not transient, of which the handler is told once, and the machine is stuck in
any other.  If there is one, the machine makes it, and stands then in the declared state
of that name.  If there are several, the step names all their targets. -/
theorem Reachable.step_eq (hb : b.Reachable) {s : Session σ ε} (hm : b.Yields s.machine)
    (h : Handler σ ε) (now : Instant) (event : Option ε) :
    match s.machine.possible.findSome? (Transition.unknown? h event s.memory),
      s.machine.possible.filter (Transition.isOpen h event s.memory) with
    | some name, _ =>
      s.step h now event = (.error (.unknownCallable .condition name), s.told h event)
    | none, [] =>
      if s.machine.state.isFinal && !s.machine.state.isTransient then
        s.step h now event =
          (.ok (.finished s.machine.state.name),
            { s with memory := h.finished (s.told h event).memory })
      else s.step h now event = (.error (.stuck s.machine.state.name), s.told h event)
    | none, [t] =>
      ∃ target deferred memory, b.chart.state? t.target = some target ∧
        Call.makeAll h t event (t.calls b.chart.hooks) (s.told h event).memory =
          (deferred, memory) ∧
        s.step h now event =
          (.ok (.moved s.machine.state.name t.target deferred),
            { machine := s.machine.commit t target now, memory })
    | none, several =>
      s.step h now event =
        (.error (.ambiguous s.machine.state.name (several.map Transition.target)),
          s.told h event) := by
  have hc := hb.wellFormed
  rcases hstep : s.step h now event with ⟨r, s'⟩
  cases Session.stepped_of_step hstep with
  | unknown hname =>
    rw [Session.unknown?] at hname
    simp only [hname]
  | stuck hknown hopen hstate =>
    rw [Session.unknown?] at hknown
    rw [Session.opened] at hopen
    simp only [hknown, hopen, hstate, Bool.false_eq_true, if_false]
  | finished hknown hopen hstate =>
    rw [Session.unknown?] at hknown
    rw [Session.opened] at hopen
    simp only [hknown, hopen, hstate, if_true]
  | ambiguous hknown hopen =>
    rw [Session.unknown?] at hknown
    rw [Session.opened] at hopen
    simp only [hknown, hopen]
  | @lost t hknown hopen htarget =>
    rw [← hm.chart_eq] at hc
    have hdeclared := hc.isSome_target_of_mem_leaving (Session.mem_possible_of_opened hopen)
    rw [htarget] at hdeclared
    exact absurd hdeclared Bool.false_ne_true
  | @moved t target deferred memory hknown hopen htarget hcalls =>
    have ht := Session.mem_possible_of_opened hopen
    rw [Machine.possible, hm.chart_eq] at ht
    rw [Session.unknown?] at hknown
    rw [Session.opened] at hopen
    rw [hm.chart_eq] at htarget hcalls
    simp only [hknown, hopen]
    refine ⟨target, deferred, memory, htarget, hcalls, ?_⟩
    rw [(hc.of_mem_leaving ht).2]

theorem entrance_step_eq :
    entrance.Reachable ∧ entrance.Yields .visitor ∧
      (∃ target deferred memory, Chart.entrance.state? "hall" = some target ∧
        Session.step .porter .noon none { machine := .visitor, memory := false } =
          (.ok (.moved "street" "hall" deferred),
            { machine := Machine.visitor.commit
                { source := "street", target := "hall", condition := some (.named "locked"),
                  negate := true } target .noon,
              memory })) ∧
      Session.step .porter .noon none { machine := .visitor, memory := true } =
        (.error (.stuck "street"), { machine := .visitor, memory := true }) := by
  have hvisitor : entrance.Yields .visitor := .start rfl
  obtain ⟨target, deferred, memory, htarget, -, hstep⟩ :=
    entrance_reachable.step_eq (s := { machine := .visitor, memory := false }) hvisitor .porter
      .noon none
  have hlocked :=
    entrance_reachable.step_eq (s := { machine := .visitor, memory := true }) hvisitor .porter
      .noon none
  exact ⟨entrance_reachable, hvisitor, ⟨target, deferred, memory, htarget, hstep⟩, hlocked⟩

end Turnstile.Blueprint
