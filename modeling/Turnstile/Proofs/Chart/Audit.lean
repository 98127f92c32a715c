import Turnstile.Chart.Audit
import Turnstile.Proofs.Chart.Reach
import Turnstile.Proofs.Reachable

/-!
# An audit reports all defects and nothing else

What counts as a defect is said here of the transitions of a chart as they are listed,
without the table and without the search: a dead end is no transition's source, and a
state is out of reach when no row of transitions leads there from the initial state.  An
audit agrees on every chart that can come about, in content and in order
(`Blueprint.Reachable.audit_eq`).
-/

namespace Turnstile

open Relation

variable {σ ε : Type}

namespace Chart

/-- No run may end in the state and no transition of the chart starts from it. -/
def DeadEnd (c : Chart σ ε) (s : State) : Prop :=
  s.isFinal = false ∧ ∀ t ∈ c.transitions, t.source ≠ s.name

/-- No row of transitions leads from the one state to the other. -/
def OutOfReach (c : Chart σ ε) (start s : State) : Prop :=
  ¬ ReflTransGen c.Leads start.name s.name

open Classical in
/-- A defect for each of the states with a property, in the order of declaration. -/
noncomputable def report (c : Chart σ ε) (P : State → Prop) (defect : String → Defect) :
    List Defect :=
  (c.states.filter fun s => decide (P s)).map fun s => defect s.name

open Classical in
theorem filter_map_eq_report {c : Chart σ ε} {p : State → Bool} {P : State → Prop}
    (hp : ∀ s, p s = true ↔ P s) (defect : String → Defect) :
    ((c.states.filter p).map fun s => defect s.name) = c.report P defect := by
  have hfilter : ∀ s ∈ c.states, p s = decide (P s) := by
    intro s _
    rw [Bool.eq_iff_iff, decide_eq_true_iff]
    exact hp s
  rw [report, List.filter_congr hfilter]

variable {c : Chart σ ε}

theorem WellFormed.isDeadEnd_iff (hc : c.WellFormed) (s : State) :
    c.isDeadEnd s = true ↔ c.DeadEnd s := by
  have hnone : (c.leaving s.name).isEmpty = true ↔ ∀ t ∈ c.transitions, t.source ≠ s.name := by
    rw [List.isEmpty_iff, List.eq_nil_iff_forall_not_mem]
    constructor
    · intro hempty t ht hsource
      exact hempty t (hc.mem_leaving_iff.mpr ⟨ht, hsource⟩)
    · intro hsources t ht
      obtain ⟨ht, hsource⟩ := hc.mem_leaving_iff.mp ht
      exact hsources t ht hsource
  rw [isDeadEnd, Bool.and_eq_true, Bool.not_eq_true', hnone, DeadEnd]

theorem WellFormed.deadEnds_eq (hc : c.WellFormed) : c.deadEnds = c.report c.DeadEnd .deadEnd :=
  filter_map_eq_report hc.isDeadEnd_iff .deadEnd

theorem WellFormed.unreachables_eq (hc : c.WellFormed) {start : State}
    (hstart : c.initialStates = [start]) :
    c.unreachables = c.report (c.OutOfReach start) .unreachable := by
  have hmiss : ∀ s : State, (!(c.reachableFrom start.name).contains s.name) = true ↔
      c.OutOfReach start s := by
    intro s
    rw [Bool.not_eq_true', List.contains_eq_mem, decide_eq_false_iff_not, OutOfReach,
      hc.mem_reachableFrom_iff]
  rw [unreachables, hstart]
  exact filter_map_eq_report hmiss .unreachable

theorem validate_eq_ok_iff : c.validate = .ok () ↔ c.audit = [] := by
  unfold validate
  cases c.audit <;> simp

theorem validate_eq_error_iff {defects : List Defect} :
    c.validate = .error defects ↔ c.audit = defects ∧ defects ≠ [] := by
  unfold validate
  cases c.audit with
  | nil =>
    simp only [reduceCtorEq, false_iff, not_and, not_not]
    exact Eq.symm
  | cons first rest =>
    rw [Except.error.injEq]
    constructor
    · rintro rfl
      exact ⟨rfl, List.cons_ne_nil _ _⟩
    · exact And.left

end Chart

namespace Blueprint

/-- The chart of a reachable blueprint is audited for exactly these defects, in this
order, and it is valid when there are none.  The search behind the audit is over after
one turn more than there are transitions. -/
theorem Reachable.audit_eq {b : Blueprint σ ε} (hb : b.Reachable) :
    (b.chart.initialStates = [] →
      b.chart.audit = .noInitialState :: b.chart.report b.chart.DeadEnd .deadEnd) ∧
    (∀ start, b.chart.initialStates = [start] →
      b.chart.audit = b.chart.report b.chart.DeadEnd .deadEnd ++
        b.chart.report (b.chart.OutOfReach start) .unreachable) ∧
    (2 ≤ b.chart.initialStates.length →
      b.chart.audit = .severalInitialStates (b.chart.initialStates.map State.name) ::
        b.chart.report b.chart.DeadEnd .deadEnd) ∧
    (b.chart.validate = .ok () ↔ b.chart.audit = []) ∧
    (∀ defects, b.chart.validate = .error defects ↔ b.chart.audit = defects ∧ defects ≠ []) ∧
    ∀ name,
      ((Search.turn b.chart)^[b.chart.transitions.length + 1] (Search.start name)).queue = [] ∧
      ((Search.turn b.chart)^[b.chart.transitions.length + 1] (Search.start name)).met =
        b.chart.reachableFrom name := by
  have hc := hb.wellFormed
  refine ⟨?none, ?one, ?several, Chart.validate_eq_ok_iff,
    fun defects => Chart.validate_eq_error_iff, Search.iterate_turn_start b.chart⟩
  case none =>
    intro hnone
    have hlost : b.chart.unreachables = [] := by rw [Chart.unreachables, hnone]
    have hfirst : b.chart.initialDefects = [.noInitialState] := by
      rw [Chart.initialDefects, hnone]
    rw [Chart.audit, hfirst, hlost, hc.deadEnds_eq, List.append_nil, List.singleton_append]
  case one =>
    intro start hstart
    have hfirst : b.chart.initialDefects = [] := by rw [Chart.initialDefects, hstart]
    rw [Chart.audit, hfirst, hc.deadEnds_eq, hc.unreachables_eq hstart, List.nil_append]
  case several =>
    intro hseveral
    obtain ⟨first, second, rest, hstates⟩ :
        ∃ first second rest, b.chart.initialStates = first :: second :: rest := by
      match hstates : b.chart.initialStates with
      | [] | [_] => simp [hstates] at hseveral
      | first :: second :: rest => exact ⟨first, second, rest, rfl⟩
    have hlost : b.chart.unreachables = [] := by rw [Chart.unreachables, hstates]
    have hfirst : b.chart.initialDefects =
        [.severalInitialStates (b.chart.initialStates.map State.name)] := by
      rw [Chart.initialDefects, hstates]
    rw [Chart.audit, hfirst, hlost, hc.deadEnds_eq, List.append_nil, List.singleton_append]

/-- A house whose cellar is a dead end and whose attic no way leads to. -/
def house : Blueprint Bool String :=
  let edits : List (Edit Bool String) :=
    [.declareState "street" { initial := true }, .declareState "hall" {},
      .declareState "cellar" {}, .declareState "attic" { final := true },
      .addTransitions
        [{ source := "street", target := "hall" }, { source := "hall", target := "street" },
          { source := "hall", target := "cellar" }]]
  edits.foldl edit empty

theorem house_audit_eq :
    house.Reachable ∧
      house.chart.report house.chart.DeadEnd .deadEnd ++
          house.chart.report (house.chart.OutOfReach
            { name := "street", flags := { initial := true } }) .unreachable =
        [.deadEnd "cellar", .unreachable "attic"] ∧
      house.chart.validate = .error [.deadEnd "cellar", .unreachable "attic"] := by
  have hhouse : house.Reachable := ⟨_, rfl⟩
  obtain ⟨-, hone, -, -, herror, hsearch⟩ := hhouse.audit_eq
  have hreach : house.chart.reachableFrom "street" = ["cellar", "hall", "street"] :=
    (hsearch "street").2.symm
  have haudit : house.chart.audit = [.deadEnd "cellar", .unreachable "attic"] := by
    have hlost : house.chart.unreachables = [.unreachable "attic"] := by
      show (house.chart.states.filter fun s =>
        !(house.chart.reachableFrom "street").contains s.name).map _ = _
      rw [hreach]
      rfl
    rw [Chart.audit, hlost]
    rfl
  have hstreet := hone { name := "street", flags := { initial := true } } rfl
  exact ⟨hhouse, hstreet.symm.trans haudit, (herror _).mpr ⟨haudit, List.cons_ne_nil _ _⟩⟩

end Blueprint
end Turnstile
