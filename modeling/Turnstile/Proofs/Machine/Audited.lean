import Turnstile.Proofs.Chart.Audit

/-!
# What an audit tells of machines

An audit looks at a chart and never at a machine, and yet each of its reports is borne out
by the machines.  Nothing is wrong with the initial state just when machines can be started,
and a machine that could be started can be reset at any time
(`Blueprint.starts_as_audited`).  A machine in a dead end is stuck there whatever its
handler says, and on a chart without defects a machine is stuck for lack of transitions only
in a state that is final and transient at once (`Blueprint.Reachable.stuck_as_audited`).
-/

namespace Turnstile

variable {σ ε : Type}

/-! ## Reports -/

namespace Chart

variable {c : Chart σ ε}

/-- The defect is one of those for which the chart does not pass. -/
def Reports (c : Chart σ ε) (d : Defect) : Prop :=
  ∃ defects, c.validate = .error defects ∧ d ∈ defects

theorem reports_iff_mem_audit {d : Defect} : c.Reports d ↔ d ∈ c.audit := by
  constructor
  · rintro ⟨defects, hdefects, hd⟩
    rwa [(validate_eq_error_iff.mp hdefects).1]
  · intro hd
    exact ⟨c.audit, validate_eq_error_iff.mpr ⟨rfl, List.ne_nil_of_mem hd⟩, hd⟩

theorem not_reports_of_valid (hvalid : c.validate = .ok ()) (d : Defect) : ¬ c.Reports d := by
  rw [reports_iff_mem_audit, validate_eq_ok_iff.mp hvalid]
  exact List.not_mem_nil

theorem mem_initialDefects_iff {d : Defect} :
    d ∈ c.initialDefects ↔
      c.initialStates = [] ∧ d = .noInitialState ∨
      2 ≤ c.initialStates.length ∧
        d = .severalInitialStates (c.initialStates.map State.name) := by
  unfold initialDefects
  match c.initialStates with
  | [] => simp
  | [start] => simp
  | first :: second :: rest => simp

theorem mem_deadEnds_iff {d : Defect} :
    d ∈ c.deadEnds ↔ ∃ s ∈ c.states, c.isDeadEnd s = true ∧ d = .deadEnd s.name := by
  simp only [deadEnds, List.mem_map, List.mem_filter, and_assoc, eq_comm]

theorem mem_unreachables_iff {d : Defect} :
    d ∈ c.unreachables ↔ ∃ start, c.initialStates = [start] ∧
      ∃ s ∈ c.states, s.name ∉ c.reachableFrom start.name ∧ d = .unreachable s.name := by
  unfold unreachables
  match c.initialStates with
  | [] => simp
  | [start] => simp [and_assoc, @eq_comm _ d]
  | first :: second :: rest => simp

theorem reports_iff {d : Defect} :
    c.Reports d ↔ d ∈ c.initialDefects ∨ d ∈ c.deadEnds ∨ d ∈ c.unreachables := by
  rw [reports_iff_mem_audit, audit, List.mem_append, List.mem_append, or_assoc]

theorem reports_noInitialState_iff : c.Reports .noInitialState ↔ c.initialStates = [] := by
  simp [reports_iff, mem_initialDefects_iff, mem_deadEnds_iff, mem_unreachables_iff]

theorem reports_severalInitialStates_iff {names : List String} :
    c.Reports (.severalInitialStates names) ↔
      2 ≤ c.initialStates.length ∧ names = c.initialStates.map State.name := by
  simp [reports_iff, mem_initialDefects_iff, mem_deadEnds_iff, mem_unreachables_iff]

theorem reports_deadEnd_iff {name : String} :
    c.Reports (.deadEnd name) ↔ ∃ s ∈ c.states, c.isDeadEnd s = true ∧ name = s.name := by
  simp [reports_iff, mem_initialDefects_iff, mem_deadEnds_iff, mem_unreachables_iff]

theorem reports_unreachable_iff {name : String} :
    c.Reports (.unreachable name) ↔ ∃ start, c.initialStates = [start] ∧
      ∃ s ∈ c.states, s.name ∉ c.reachableFrom start.name ∧ name = s.name := by
  simp [reports_iff, mem_initialDefects_iff, mem_deadEnds_iff, mem_unreachables_iff]

/-! ## Where machines start -/

theorem start_eq_error_iff {fault : Fault} :
    c.start = .error fault ↔
      c.initialStates = [] ∧ fault = .noInitialState ∨
      2 ≤ c.initialStates.length ∧
        fault = .severalInitialStates (c.initialStates.map State.name) := by
  unfold start initialState
  match c.initialStates with
  | [] => simp [eq_comm]
  | [start] => simp
  | first :: second :: rest => simp [eq_comm]

theorem start_eq_ok_iff {m : Machine σ ε} :
    c.start = .ok m ↔ ∃ state, c.initialStates = [state] ∧
      m = { chart := c, state, latest := none, history := History.empty } := by
  unfold start initialState
  match c.initialStates with
  | [] => simp
  | [state] => simp [eq_comm]
  | first :: second :: rest => simp

theorem initialState_eq_ok_iff {state : State} :
    c.initialState = .ok state ↔ c.initialStates = [state] := by
  unfold initialState
  match c.initialStates with
  | [] => simp
  | [start] => simp
  | first :: second :: rest => simp

/-- A chart can be started when nothing is wrong with its initial state. -/
theorem exists_start_of_not_reports (hnone : ¬ c.Reports .noInitialState)
    (hseveral : ∀ names, ¬ c.Reports (.severalInitialStates names)) :
    ∃ m, c.start = .ok m := by
  cases hstart : c.start with
  | ok m => exact ⟨m, rfl⟩
  | error fault =>
    rcases start_eq_error_iff.mp hstart with ⟨hstates, -⟩ | ⟨hstates, -⟩
    · exact absurd (reports_noInitialState_iff.mpr hstates) hnone
    · exact absurd (reports_severalInitialStates_iff.mpr ⟨hstates, rfl⟩) (hseveral _)

end Chart

namespace Blueprint

variable {b : Blueprint σ ε}

theorem Yields.exists_initialState {m : Machine σ ε} (hm : b.Yields m) :
    ∃ state, b.chart.initialStates = [state] ∧ m.reset = .ok (m.moveTo state) := by
  obtain ⟨m₀, hm₀, -⟩ := hm.exists_changes
  obtain ⟨state, hstates, -⟩ := Chart.start_eq_ok_iff.mp hm₀
  refine ⟨state, hstates, ?_⟩
  rw [Machine.reset, hm.chart_eq, Chart.initialState_eq_ok_iff.mpr hstates]

/-- An audit reports that there is no initial state, or that there are several and which,
just when machines cannot be started for that reason, and neither when they can.  Every
machine that comes about can be reset, and is then like a machine that is started afresh,
but for the bound on its history. -/
theorem starts_as_audited (b : Blueprint σ ε) :
    (b.chart.Reports .noInitialState ↔ b.chart.start = .error .noInitialState) ∧
    (∀ names, b.chart.Reports (.severalInitialStates names) ↔
      b.chart.start = .error (.severalInitialStates names)) ∧
    (∀ names, b.chart.Reports (.severalInitialStates names) →
      names = (b.chart.states.filter State.isInitial).map State.name) ∧
    ((¬ b.chart.Reports .noInitialState ∧
        ∀ names, ¬ b.chart.Reports (.severalInitialStates names)) ↔
      ∃ m, b.chart.start = .ok m) ∧
    ∀ m, b.Yields m → ∃ fresh, b.chart.start = .ok fresh ∧
      m.reset =
        .ok { fresh with history := { fresh.history with limit := m.history.limit } } := by
  have hnone : b.chart.Reports .noInitialState ↔ b.chart.start = .error .noInitialState := by
    rw [Chart.reports_noInitialState_iff, Chart.start_eq_error_iff]
    simp
  have hseveral : ∀ names, b.chart.Reports (.severalInitialStates names) ↔
      b.chart.start = .error (.severalInitialStates names) := by
    intro names
    rw [Chart.reports_severalInitialStates_iff, Chart.start_eq_error_iff]
    simp
  refine ⟨hnone, hseveral, fun names hnames => ?_, ⟨?_, ?_⟩, fun m hm => ?_⟩
  · exact (Chart.reports_severalInitialStates_iff.mp hnames).2
  · rintro ⟨hsome, hfew⟩
    exact Chart.exists_start_of_not_reports hsome hfew
  · rintro ⟨m, hm⟩
    rw [hnone, hm]
    refine ⟨nofun, fun names => ?_⟩
    rw [hseveral, hm]
    exact nofun
  · obtain ⟨state, hstates, hreset⟩ := hm.exists_initialState
    refine ⟨_, Chart.start_eq_ok_iff.mpr ⟨state, hstates, rfl⟩, ?_⟩
    rw [hreset, Machine.moveTo, hm.chart_eq]
    rfl

/-- The house with a second state in which machines might start. -/
def openHouse : Blueprint Bool String := house.edit (.declareState "attic" { initial := true })

theorem openHouse_starts_as_audited :
    openHouse.chart.start = .error (.severalInitialStates ["street", "attic"]) ∧
      openHouse.chart.Reports (.severalInitialStates ["street", "attic"]) ∧
      entrance.Yields (Machine.guest.limitHistory 1) ∧
      ∃ fresh, entrance.chart.start = .ok fresh ∧
        (Machine.guest.limitHistory 1).reset =
          .ok { fresh with history := { fresh.history with limit := some 1 } } := by
  have hopen : openHouse.chart.start = .error (.severalInitialStates ["street", "attic"]) := rfl
  have hguest : entrance.Yields (Machine.guest.limitHistory 1) :=
    .next entrance_yields_guest (.limitHistory 1)
  exact ⟨hopen, (openHouse.starts_as_audited.2.1 _).mpr hopen, hguest,
    entrance.starts_as_audited.2.2.2.2 _ hguest⟩

end Blueprint

/-! ## Where machines are stuck -/

/-- A transition whose condition is known and that is not open has a condition, and its value
is the one that keeps the transition closed. -/
theorem Transition.exists_condition_of_closed {h : Handler σ ε} {event : Option ε} {x : σ}
    {t : Transition σ ε} (hknown : t.unknown? h event x = none)
    (hclosed : t.isOpen h event x = false) :
    ∃ c, t.condition = some c ∧ c.value h event x = some t.negate ∧
      t.eligible h event x = .ok false := by
  have heligible : t.eligible h event x = .ok false := by
    rw [Transition.eligible_eq, hknown, hclosed]
  unfold eligible at heligible
  split at heligible
  · simp at heligible
  · next c hc =>
    split at heligible
    · simp at heligible
    · next value hvalue =>
      have hnegate : value = t.negate := by simpa using heligible
      refine ⟨c, hc, hnegate ▸ hvalue, ?_⟩
      rw [Transition.eligible_eq, hknown, hclosed]

namespace Session

variable {h : Handler σ ε} {now : Instant} {event : Option ε} {s s' : Session σ ε}

/-- The state may be left, but the conditions of all transitions that leave it keep them closed
at the moment. -/
def Barred (h : Handler σ ε) (event : Option ε) (s : Session σ ε) : Prop :=
  s.machine.possible ≠ [] ∧
    ∀ t ∈ s.machine.possible, ∃ c, t.condition = some c ∧
      c.value h event s.memory = some t.negate ∧ t.eligible h event s.memory = .ok false

theorem barred_or_eq_nil_of_opened_eq_nil (hknown : s.unknown? h event = none)
    (hopen : s.opened h event = []) : s.Barred h event ∨ s.machine.possible = [] := by
  by_cases hpossible : s.machine.possible = []
  · exact .inr hpossible
  · refine .inl ⟨hpossible, fun t ht => ?_⟩
    have hclosed := List.filter_eq_nil_iff.mp hopen t ht
    have hresolved := List.findSome?_eq_none_iff.mp hknown t ht
    exact Transition.exists_condition_of_closed hresolved (Bool.eq_false_iff.mpr hclosed)

/-- In a state that is not final and that no transition leaves, every step is stuck. -/
theorem step_of_deadEnd (hdead : s.machine.chart.isDeadEnd s.machine.state = true)
    (h : Handler σ ε) (now : Instant) (event : Option ε) :
    (s.step h now event).1 = .error (.stuck s.machine.state.name) := by
  obtain ⟨hfinal, hleaving⟩ : s.machine.state.isFinal = false ∧ s.machine.possible = [] := by
    simpa [Chart.isDeadEnd, Machine.possible] using hdead
  have hknown : s.unknown? h event = none := by
    rw [unknown?, hleaving]
    rfl
  have hopen : s.opened h event = [] := by
    rw [opened, hleaving]
    rfl
  have hstate : (s.machine.state.isFinal && !s.machine.state.isTransient) = false := by
    rw [hfinal, Bool.false_and]
  rw [step_of_stepped (.stuck hknown hopen hstate)]

end Session

theorem Chart.isDeadEnd_eq_false_of_valid {c : Chart σ ε} (hvalid : c.validate = .ok ())
    {state : State} (hstate : state ∈ c.states) : c.isDeadEnd state = false := by
  rw [Bool.eq_false_iff]
  intro hdead
  exact not_reports_of_valid hvalid _ (reports_deadEnd_iff.mpr ⟨state, hstate, hdead, rfl⟩)

namespace Blueprint

variable {b : Blueprint σ ε}

/-- On a chart that passes, the transitions that leave a state are barred when a machine is
stuck there, or there are none and the state is transient and final at once. -/
theorem Yields.barred_or_of_stuck (hb : b.chart.WellFormed) (hvalid : b.chart.validate = .ok ())
    {s s' : Session σ ε} (hm : b.Yields s.machine) {h : Handler σ ε} {now : Instant}
    {event : Option ε} {name : String}
    (hstep : s.step h now event = (.error (.stuck name), s')) :
    name = s.machine.state.name ∧
      (s.Barred h event ∨ s.machine.possible = [] ∧
        s.machine.state.isTransient = true ∧ s.machine.state.isFinal = true) := by
  cases Session.stepped_of_step hstep with
  | stuck hknown hopen hstate =>
    refine ⟨rfl, ?_⟩
    rcases Session.barred_or_eq_nil_of_opened_eq_nil hknown hopen with hbarred | hnone
    · exact .inl hbarred
    · -- the state would be a dead end if it were not final
      have hlive := Chart.isDeadEnd_eq_false_of_valid hvalid
        (Chart.mem_states_of_state? (hm.state?_eq hb))
      rw [Machine.possible, hm.chart_eq] at hnone
      have hfinal : s.machine.state.isFinal = true := by
        simpa [Chart.isDeadEnd, hnone] using hlive
      have htransient : s.machine.state.isTransient = true := by
        simpa [hfinal] using hstate
      rw [Machine.possible, hm.chart_eq]
      exact .inr ⟨hnone, htransient, hfinal⟩

theorem Yields.isDeadEnd_of_reports (hb : b.chart.WellFormed) {m : Machine σ ε}
    (hm : b.Yields m) (hreport : b.chart.Reports (.deadEnd m.state.name)) :
    m.chart.isDeadEnd m.state = true := by
  obtain ⟨state, hstate, hdead, hname⟩ := Chart.reports_deadEnd_iff.mp hreport
  have hsame : some m.state = some state := by
    rw [← hm.state?_eq hb, hname]
    exact hb.state?_of_mem hstate
  rw [hm.chart_eq, Option.some.inj hsame]
  exact hdead

/-- If the chart passes, machines can be started on it, and a machine is stuck only in a
state whose transitions are all kept closed by their conditions at the moment, or that no
transition leaves and that is final and transient at once.  If the audit of a chart reports
a dead end, machines are stuck there in every step. -/
theorem Reachable.stuck_as_audited (hb : b.Reachable) :
    (b.chart.validate = .ok () →
      (∃ m, b.chart.start = .ok m) ∧
      ∀ s : Session σ ε, b.Yields s.machine →
        ∀ (h : Handler σ ε) now event name s',
          s.step h now event = (.error (.stuck name), s') →
            name = s.machine.state.name ∧
            (s.Barred h event ∨ s.machine.possible = [] ∧
              s.machine.state.isTransient = true ∧ s.machine.state.isFinal = true)) ∧
    ∀ name, b.chart.Reports (.deadEnd name) →
      ∀ s : Session σ ε, b.Yields s.machine → s.machine.state.name = name →
        ∀ (h : Handler σ ε) now event, (s.step h now event).1 = .error (.stuck name) := by
  refine ⟨fun hvalid => ⟨?_, fun s hm h now event name s' hstep => ?_⟩, ?_⟩
  · have hsilent := Chart.not_reports_of_valid hvalid
    exact Chart.exists_start_of_not_reports (hsilent _) fun names => hsilent _
  · exact hm.barred_or_of_stuck hb.wellFormed hvalid hstep
  · rintro name hreport s hm rfl h now event
    exact Session.step_of_deadEnd (hm.isDeadEnd_of_reports hb.wellFormed hreport) h now event

theorem entrance_valid : entrance.chart.validate = .ok () := by
  have hreach : entrance.chart.reachableFrom "street" = ["room", "hall", "street"] :=
    (Search.iterate_turn_start entrance.chart "street").2.symm
  have hlost : entrance.chart.unreachables = [] := by
    show (entrance.chart.states.filter fun s =>
      !(entrance.chart.reachableFrom "street").contains s.name).map _ = _
    rw [hreach]
    rfl
  rw [Chart.validate_eq_ok_iff, Chart.audit, hlost]
  rfl

/-- Has got into the cellar of the house. -/
def lodger : Machine Bool String :=
  { chart := house.chart, state := { name := "cellar", flags := {} }, latest := none,
    history := History.empty }

theorem house_yields_lodger : house.Yields lodger := by
  have hstart : house.chart.start = .ok
      { chart := house.chart, state := { name := "street", flags := { initial := true } },
        latest := none, history := History.empty } := rfl
  exact .next (.start hstart) (.restore (p := { state := "cellar" }) rfl)

theorem house_stuck_as_audited :
    entrance.Reachable ∧ entrance.Yields .visitor ∧
      Session.step .porter .noon none { machine := .visitor, memory := true } =
        (.error (.stuck "street"), { machine := .visitor, memory := true }) ∧
      Session.Barred .porter none { machine := .visitor, memory := true } ∧
      house.Reachable ∧ house.Yields lodger ∧
      (Session.step .porter .noon none { machine := lodger, memory := true }).1 =
        .error (.stuck "cellar") := by
  have hvisitor : entrance.Yields .visitor := .start rfl
  have hstep : Session.step .porter .noon none { machine := .visitor, memory := true } =
      (.error (.stuck "street"), { machine := .visitor, memory := true }) := rfl
  obtain ⟨-, hstuck⟩ := entrance_reachable.stuck_as_audited.1 entrance_valid
  obtain ⟨-, hbarred | ⟨hnone, -⟩⟩ := hstuck _ hvisitor _ _ _ _ _ hstep
  · have hhouse : house.Reachable := ⟨_, rfl⟩
    have hcellar : house.chart.Reports (.deadEnd "cellar") :=
      Chart.reports_deadEnd_iff.mpr ⟨lodger.state, by decide, rfl, rfl⟩
    exact ⟨entrance_reachable, hvisitor, hstep, hbarred, hhouse, house_yields_lodger,
      hhouse.stuck_as_audited.2 _ hcellar { machine := lodger, memory := true }
        house_yields_lodger rfl _ _ _⟩
  · cases hnone

end Blueprint
end Turnstile
