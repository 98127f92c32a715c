import Mathlib.Data.List.Chain
import Mathlib.Data.List.Perm.Subperm
import Turnstile.Proofs.Chart.Reach
import Turnstile.Proofs.Machine.Passing

/-!
# Runs that come to an end

A run goes on as long as it lands in states that it passes through.  The names of the
states that it has passed through form a row along the transitions of the chart, the state
in which it started left aside.  When no circle of transitions stays among such states, no
name comes twice in the row, so it is no longer than there are such states.  What the
handler does has no part in the argument.
-/

namespace Turnstile

open Relation

variable {σ ε : Type}

namespace Chart

/-- The name is that of a state that runs pass through. -/
def PassesThrough (c : Chart σ ε) (name : String) : Prop :=
  ∃ state ∈ c.states, state.name = name ∧ state.advances = true

/-- A transition leads from one state that runs pass through to another. -/
def LeadsOn (c : Chart σ ε) (source target : String) : Prop :=
  c.Leads source target ∧ c.PassesThrough source ∧ c.PassesThrough target

/-- No circle of transitions stays among the states that runs pass through. -/
def NeverCircles (c : Chart σ ε) : Prop := ∀ name, ¬ TransGen c.LeadsOn name name

/-- How many states runs pass through. -/
def passingCount (c : Chart σ ε) : Nat := c.states.countP State.advances

theorem NeverCircles.nodup {c : Chart σ ε} (hc : c.NeverCircles) {names : List String}
    (hchain : names.IsChain c.LeadsOn) : names.Nodup := by
  have hpairwise : names.Pairwise (TransGen c.LeadsOn) :=
    List.isChain_iff_pairwise.mp (hchain.imp fun _ _ hleads => .single hleads)
  refine hpairwise.imp fun {first second} hpath heq => ?_
  subst heq
  exact hc first hpath

theorem length_le_passingCount {c : Chart σ ε} {names : List String} (hnames : names.Nodup)
    (hpassed : ∀ name ∈ names, c.PassesThrough name) : names.length ≤ c.passingCount := by
  have hsubset : names ⊆ (c.states.filter State.advances).map State.name := by
    intro name hname
    obtain ⟨state, hstate, rfl, hadv⟩ := hpassed name hname
    exact List.mem_map_of_mem (List.mem_filter.mpr ⟨hstate, hadv⟩)
  have hlength := (hnames.subperm hsubset).length_le
  rwa [List.length_map, ← List.countP_eq_length_filter] at hlength

end Chart

namespace Session

variable {h : Handler σ ε} {clock : Nat → Instant} {event : Option ε} {s s' : Session σ ε}

theorem leads_of_moved {now : Instant} {source target : String} {fault : Option Fault}
    (hstep : s.step h now event = (.ok (.moved source target fault), s'))
    (hc : s.machine.chart.WellFormed) :
    s.machine.chart.Leads s.machine.state.name s'.machine.state.name ∧
      s'.machine.state ∈ s.machine.chart.states := by
  cases stepped_of_step hstep with
  | @moved t state _ memory hknown hopen htarget hcalls =>
    obtain ⟨ht, hsource⟩ := hc.of_mem_leaving (mem_possible_of_opened hopen)
    exact ⟨⟨t, ht, hsource, (Chart.name_of_state? htarget).symm⟩,
      Chart.mem_states_of_state? htarget⟩

/-- The names of the states that a run has passed through, in order. -/
theorem Passing.exists_names {taken n : Nat} (hp : Passing h clock event taken n s s')
    (hc : s.machine.chart.WellFormed) :
    ∃ names : List String, names.length = n ∧ names.IsChain s.machine.chart.LeadsOn ∧
      (∀ name ∈ names, s.machine.chart.PassesThrough name) ∧
      ∀ name ∈ names.head?, s.machine.chart.Leads s.machine.state.name name := by
  induction hp with
  | refl => exact ⟨[], rfl, List.isChain_nil, by simp, by simp⟩
  | @step taken n s s₁ s' source target hstep hadv hrest ih =>
    have hchart := (stepped_of_step hstep).chart_eq
    obtain ⟨hleads, hstate⟩ := leads_of_moved hstep hc
    rw [hchart] at ih
    obtain ⟨names, hlength, hchain, hpassed, hfirst⟩ := ih hc
    have hthrough : s.machine.chart.PassesThrough s₁.machine.state.name :=
      ⟨s₁.machine.state, hstate, rfl, hadv⟩
    refine ⟨s₁.machine.state.name :: names, congrArg (· + 1) hlength, ?_,
      List.forall_mem_cons.mpr ⟨hthrough, hpassed⟩, ?_⟩
    · refine List.isChain_cons.mpr ⟨fun name hname => ?_, hchain⟩
      exact ⟨hfirst name hname, hthrough, hpassed name (List.mem_of_mem_head? hname)⟩
    · intro name hname
      obtain rfl := Option.some.inj hname
      exact hleads

/-- A run passes through no more states than there are to pass through. -/
theorem Passing.le_passingCount {taken n : Nat} (hp : Passing h clock event taken n s s')
    (hc : s.machine.chart.WellFormed) (hflow : s.machine.chart.NeverCircles) :
    n ≤ s.machine.chart.passingCount := by
  obtain ⟨names, hlength, hchain, hpassed, -⟩ := hp.exists_names hc
  have hle := Chart.length_le_passingCount (hflow.nodup hchain) hpassed
  rwa [hlength] at hle

end Session

theorem Chart.entrance_neverCircles : Chart.entrance.NeverCircles := by
  have hhall : ∀ name, Chart.entrance.PassesThrough name → name = "hall" := by
    rintro name ⟨state, hstate, rfl, hadv⟩
    exact (show ∀ state ∈ Chart.entrance.states, state.advances = true → state.name = "hall" by
      decide) state hstate hadv
  have hnever : ∀ source target, ¬ Chart.entrance.LeadsOn source target := by
    rintro source target ⟨⟨t, ht, hsource, htarget⟩, hfrom, hto⟩
    rw [hhall source hfrom] at hsource
    rw [hhall target hto] at htarget
    exact (show ∀ t ∈ Chart.entrance.transitions, ¬ (t.source = "hall" ∧ t.target = "hall") by
      decide) t ht ⟨hsource, htarget⟩
  intro name hpath
  cases hpath with
  | single hleads => exact hnever _ _ hleads
  | tail _ hleads => exact hnever _ _ hleads

/-! ## Main statement -/

namespace Blueprint

variable {b : Blueprint σ ε}

/-- If no circle of transitions stays among the states that runs pass through, then every
run comes to an end: from any state, with any handler and on any event, and by at most one
step more than there are such states.  The steps that it takes leave the same session when
they are made one by one, every budget that allows them is enough and no smaller one is, and
the outcome counts them. -/
theorem Reachable.exists_run_eq (hb : b.Reachable) (hflow : b.chart.NeverCircles)
    {s : Session σ ε} (hs : s.machine.chart = b.chart) (h : Handler σ ε)
    (clock : Nat → Instant) (event : Option ε) :
    ∃ r s', (∀ budget, b.chart.passingCount + 1 ≤ budget →
        s.run h clock event budget = some (r, s')) ∧
      ∃ n, 1 ≤ n ∧ n ≤ b.chart.passingCount + 1 ∧ (s.steps h clock event 0 n).2 = s' ∧
        (∀ budget, s.run h clock event budget = if n ≤ budget then some (r, s') else none) ∧
        ∀ o, r = .ok o → o.steps = n := by
  have hc := hb.wellFormed
  rw [← hs] at hc hflow ⊢
  cases hrun : s.run h clock event (s.machine.chart.passingCount + 1) with
  | some result =>
    obtain ⟨r, s'⟩ := result
    obtain ⟨results, hruns⟩ := Session.exists_runs_of_runFrom hrun
    obtain ⟨n, s₁, last, hpast, hlength, -, -⟩ := hruns.exists_last
    have hle := hpast.le_passingCount hc hflow
    refine ⟨r, s', fun budget hbudget => Session.runFrom_mono hrun hbudget, results.length,
      hruns.length_pos, by omega, congrArg Prod.snd hruns.steps_eq, hruns.runFrom_eq, ?_⟩
    intro o ho
    rw [hruns.steps_of_eq_ok ho, Nat.zero_add]
  | none =>
    -- the run has passed through one state more than there are to pass through
    obtain ⟨s', hpast⟩ := Session.exists_passing_of_runFrom_eq_none hrun
    exact absurd (hpast.le_passingCount hc hflow) (Nat.not_succ_le_self _)

/-- The visitor passes through the hall, so one step is not enough for the run and two are. -/
theorem entrance_exists_run_eq :
    let visit : Session Bool String := { machine := .visitor, memory := false }
    entrance.Reachable ∧ Chart.entrance.NeverCircles ∧ Chart.entrance.passingCount = 1 ∧
      visit.run .porter (fun _ => .noon) none 1 = none ∧
      ∃ r s', visit.run .porter (fun _ => .noon) none 2 = some (r, s') ∧
        (visit.steps .porter (fun _ => .noon) none 0 2).2 = s' ∧ ∀ o, r = .ok o → o.steps = 2 := by
  intro visit
  have hshort : visit.run .porter (fun _ => .noon) none 1 = none := rfl
  obtain ⟨r, s', hrun, n, -, hle, hlast, hexact, hcount⟩ :=
    entrance_reachable.exists_run_eq Chart.entrance_neverCircles (s := visit) rfl .porter
      (fun _ => .noon) none
  obtain rfl : n = 2 := by
    have hlong : ¬ n ≤ 1 := by
      intro hn
      rw [hexact 1, if_pos hn] at hshort
      cases hshort
    exact Nat.le_antisymm hle (Nat.not_le.mp hlong)
  exact ⟨entrance_reachable, Chart.entrance_neverCircles, rfl, hshort, r, s', hrun 2 (by decide),
    hlast, hcount⟩

end Blueprint
end Turnstile
