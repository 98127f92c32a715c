import Mathlib.Logic.Relation
import Turnstile.Blueprint
import Turnstile.Proofs.Chart.WellFormed
import Turnstile.Proofs.Machine.Run

/-!
# Blueprints and machines that can come about

A blueprint is reachable when edits lead to it from the empty one.  It yields the
machines that start on its chart, those that its factory makes, as long as the factory
itself only starts machines and calls on them, and whatever calls lead to from there.

All calls come down to three changes of a machine: it makes a possible transition, it
is moved to a state, or its history is limited.  A call is a row of such changes, so a
property of machines holds throughout when it holds at the start and each of the three
keeps it (`Yields.invariant`).
-/

namespace Turnstile

variable {σ ε : Type}

/-! ## Blueprints -/

inductive Edit (σ ε : Type) where
  | declareState (name : String) (flags : Flags)
  | declareTransition (t : Transition σ ε)
  | disable (source target : String)
  | addTransitions (ts : List (Transition σ ε))
  | define (body : Handle → Build σ ε Unit)
  | registerHook (hook : Hook σ ε)
  | makeAllTransient
  | setFactory (factory : Chart σ ε → Except Fault (Machine σ ε))
  | inherit

namespace Blueprint

/-- The blueprint behind an edit, or why the edit was refused. -/
def tryEdit (b : Blueprint σ ε) : Edit σ ε → Except DeclareError (Blueprint σ ε)
  | .declareState name flags => .ok { b with chart := b.chart.declareState name flags }
  | .declareTransition t => (b.chart.declareTransition t).map fun chart => { b with chart }
  | .disable source target => (b.chart.disable source target).map fun chart => { b with chart }
  | .addTransitions ts => (b.chart.addTransitions ts).map fun chart => { b with chart }
  | .define body =>
    let outcome : Except DeclareError (Chart σ ε) := Id.run (b.chart.define body)
    outcome.map fun chart => { b with chart }
  | .registerHook hook => .ok { b with chart := b.chart.registerHook hook }
  | .makeAllTransient => .ok { b with chart := b.chart.makeAllTransient }
  | .setFactory factory => .ok (b.setFactory factory)
  | .inherit => .ok b.inherit

/-- The blueprint behind an edit, which is the old one when the edit was refused. -/
def edit (b : Blueprint σ ε) (e : Edit σ ε) : Blueprint σ ε :=
  match b.tryEdit e with
  | .ok b' => b'
  | .error _ => b

/-- Edits lead from the empty blueprint to this one. -/
def Reachable (b : Blueprint σ ε) : Prop := ∃ edits : List (Edit σ ε), edits.foldl edit empty = b

theorem exists_chart_of_map {b b' : Blueprint σ ε} {outcome : Except DeclareError (Chart σ ε)}
    (h : outcome.map (fun chart => { b with chart }) = .ok b') :
    ∃ chart, outcome = .ok chart ∧ b' = { b with chart } := by
  cases outcome with
  | error refusal => cases h
  | ok chart => exact ⟨chart, rfl, (Except.ok.inj h).symm⟩

theorem wellFormed_of_tryEdit {b b' : Blueprint σ ε} (hb : b.chart.WellFormed) {e : Edit σ ε}
    (he : b.tryEdit e = .ok b') : b'.chart.WellFormed := by
  cases e with
  | declareState name flags =>
    obtain rfl := Except.ok.inj he
    exact hb.declareState name flags
  | declareTransition t =>
    obtain ⟨chart, hchart, rfl⟩ := exists_chart_of_map he
    exact hb.declareTransition hchart
  | disable source target =>
    obtain ⟨chart, hchart, rfl⟩ := exists_chart_of_map he
    exact hb.disable hchart
  | addTransitions ts =>
    obtain ⟨chart, hchart, rfl⟩ := exists_chart_of_map he
    exact hb.addTransitions hchart
  | define body =>
    obtain ⟨chart, hchart, rfl⟩ := exists_chart_of_map he
    exact hb.addOutline hchart
  | registerHook hook | makeAllTransient =>
    obtain rfl := Except.ok.inj he
    exact ⟨hb.names, hb.distinct, hb.filed, hb.declared⟩
  | setFactory factory | inherit =>
    obtain rfl := Except.ok.inj he
    exact hb

theorem Reachable.wellFormed {b : Blueprint σ ε} (hb : b.Reachable) : b.chart.WellFormed := by
  obtain ⟨edits, rfl⟩ := hb
  have hrow : ∀ (edits : List (Edit σ ε)) (b : Blueprint σ ε), b.chart.WellFormed →
      (edits.foldl edit b).chart.WellFormed := by
    intro edits
    induction edits with
    | nil => exact fun b hb => hb
    | cons e edits ih =>
      intro b hb
      refine ih _ ?_
      rw [edit]
      split
      · next b' he => exact wellFormed_of_tryEdit hb he
      · exact hb
  exact hrow edits empty Chart.WellFormed.empty

end Blueprint

/-! ## Machines -/

namespace Machine

/-- One call on a machine leads to another, whatever the call is given.  A step or a run
may fail and still lead somewhere; a `restore` or a `reset` that fails does not. -/
inductive Next (m : Machine σ ε) : Machine σ ε → Prop
  | step (h : Handler σ ε) (now : Instant) (event : Option ε) (memory : σ) :
      Next m (Session.step h now event { machine := m, memory }).2.machine
  | run {h : Handler σ ε} {clock : Nat → Instant} {event : Option ε} {memory : σ}
      {budget : Nat} {r : Except Fault Outcome} {s : Session σ ε}
      (hrun : Session.run h clock event budget { machine := m, memory } = some (r, s)) :
      Next m s.machine
  | restore {p : Position} {m' : Machine σ ε} (hm : m.restore p = .ok m') : Next m m'
  | reset {m' : Machine σ ε} (hm : m.reset = .ok m') : Next m m'
  | limitHistory (limit : Nat) : Next m (m.limitHistory limit)

/-- What calls on a machine come down to. -/
inductive Change (m : Machine σ ε) : Machine σ ε → Prop
  | commit {t : Transition σ ε} {target : State} (now : Instant) (ht : t ∈ m.possible)
      (htarget : m.chart.state? t.target = some target) : Change m (m.commit t target now)
  | move {state : State} (hstate : state ∈ m.chart.states) : Change m (m.moveTo state)
  | limit (n : Nat) : Change m (m.limitHistory n)

end Machine

namespace Session

variable {h : Handler σ ε} {clock : Nat → Instant} {event : Option ε} {s s' : Session σ ε}

open Relation in
theorem Stepped.changes {now : Instant} {r : Except Fault StepResult}
    (hs : Stepped h now event s r s') : ReflTransGen Machine.Change s.machine s'.machine := by
  cases hs with
  | unknown | stuck | finished | ambiguous | lost => exact .refl
  | @moved t target fault memory hknown hopen htarget hcalls =>
    exact .single (.commit now (mem_possible_of_opened hopen) htarget)

open Relation in
theorem Runs.changes {taken : Nat} {results : List (Except Fault StepResult)}
    {r : Except Fault Outcome} (hr : Runs h clock event taken s results r s') :
    ReflTransGen Machine.Change s.machine s'.machine := by
  induction hr with
  | last hstep hend => exact (stepped_of_step hstep).changes
  | more hstep hgo hrest ih => exact (stepped_of_step hstep).changes.trans ih

end Session

namespace Machine

open Relation

theorem mem_states_of_initialState {c : Chart σ ε} {state : State}
    (h : c.initialState = .ok state) : state ∈ c.states := by
  unfold Chart.initialState at h
  split at h
  · simp at h
  · next start hstart =>
    obtain rfl := Except.ok.inj h
    have hmem : start ∈ c.initialStates := hstart ▸ List.mem_singleton_self start
    exact (List.mem_filter.mp hmem).1
  · simp at h

theorem exists_state_of_start {c : Chart σ ε} {m : Machine σ ε} (h : c.start = .ok m) :
    ∃ state ∈ c.states, m = { chart := c, state, latest := none, history := History.empty } := by
  unfold Chart.start at h
  split at h
  · simp at h
  · next state hstate => exact ⟨state, mem_states_of_initialState hstate, (Except.ok.inj h).symm⟩

theorem Change.chart_eq {m m' : Machine σ ε} (hm : m.Change m') : m'.chart = m.chart := by
  cases hm <;> rfl

theorem Next.changes {m m' : Machine σ ε} (hm : m.Next m') : ReflTransGen Change m m' := by
  cases hm with
  | step h now event memory =>
    rcases hstep : Session.step h now event { machine := m, memory } with ⟨r, s'⟩
    exact (Session.stepped_of_step hstep).changes
  | run hrun =>
    obtain ⟨results, hruns⟩ := Session.exists_runs_of_runFrom hrun
    exact hruns.changes
  | restore hm =>
    unfold Machine.restore at hm
    split at hm
    · simp at hm
    · next state hstate =>
      obtain rfl := Except.ok.inj hm
      exact .single (.move (Chart.mem_states_of_state? hstate))
  | reset hm =>
    unfold Machine.reset at hm
    split at hm
    · simp at hm
    · next state hstate =>
      obtain rfl := Except.ok.inj hm
      exact .single (.move (mem_states_of_initialState hstate))
  | limitHistory limit => exact .single (.limit limit)

end Machine

namespace Blueprint

open Relation

/-- The factory makes machines by starting them and calling on them, and in no other way. -/
def CallsOnly (factory : Chart σ ε → Except Fault (Machine σ ε)) : Prop :=
  ∀ c m, factory c = .ok m → ∃ m₀, c.start = .ok m₀ ∧ ReflTransGen Machine.Next m₀ m

/-- The machines that come about on a blueprint. -/
inductive Yields (b : Blueprint σ ε) : Machine σ ε → Prop
  | start {m : Machine σ ε} (hm : b.chart.start = .ok m) : Yields b m
  | instantiate {m : Machine σ ε} (hf : CallsOnly b.factory) (hm : b.instantiate = .ok m) :
      Yields b m
  | next {m m' : Machine σ ε} (hm : Yields b m) (hn : m.Next m') : Yields b m'

namespace Yields

variable {b : Blueprint σ ε}

theorem exists_changes {m : Machine σ ε} (hm : b.Yields m) :
    ∃ m₀, b.chart.start = .ok m₀ ∧ ReflTransGen Machine.Change m₀ m := by
  induction hm with
  | start hm => exact ⟨_, hm, .refl⟩
  | instantiate hf hm =>
    obtain ⟨m₀, hstart, hcalls⟩ := hf _ _ hm
    exact ⟨m₀, hstart, reflTransGen_closed (fun _ _ => Machine.Next.changes) _ _ hcalls⟩
  | next hm hn ih =>
    obtain ⟨m₀, hstart, hchanges⟩ := ih
    exact ⟨m₀, hstart, hchanges.trans hn.changes⟩

/-- What holds of new machines and is kept by the three changes holds of all machines, and
the chart of a machine is always that of the blueprint. -/
theorem invariant {m : Machine σ ε} (hm : b.Yields m) (P : Machine σ ε → Prop)
    (hstart : ∀ state ∈ b.chart.states,
      P { chart := b.chart, state, latest := none, history := History.empty })
    (hchange : ∀ m m', m.chart = b.chart → P m → m.Change m' → P m') :
    m.chart = b.chart ∧ P m := by
  obtain ⟨m₀, hm₀, hchanges⟩ := hm.exists_changes
  clear hm
  induction hchanges with
  | refl =>
    obtain ⟨state, hstate, rfl⟩ := Machine.exists_state_of_start hm₀
    exact ⟨rfl, hstart state hstate⟩
  | tail _ hc ih =>
    obtain ⟨hchart, hm⟩ := ih
    exact ⟨hc.chart_eq.trans hchart, hchange _ _ hchart hm hc⟩

theorem chart_eq {m : Machine σ ε} (hm : b.Yields m) : m.chart = b.chart :=
  (hm.invariant (fun _ => True) (fun _ _ => trivial) fun _ _ _ _ _ => trivial).1

end Yields
end Blueprint

/-! ## Where machines stand -/

theorem Session.Stepped.chart_eq {h : Handler σ ε} {now : Instant} {event : Option ε}
    {s s' : Session σ ε} {r : Except Fault StepResult} (hs : Stepped h now event s r s') :
    s'.machine.chart = s.machine.chart := by
  cases hs <;> rfl

/-- On a well-formed chart every transition leads somewhere. -/
theorem Session.state?_target_ne_none {h : Handler σ ε} {event : Option ε} {s : Session σ ε}
    {t : Transition σ ε} (hc : s.machine.chart.WellFormed) (hopen : s.opened h event = [t]) :
    s.machine.chart.state? t.target ≠ none := by
  have hdeclared := hc.isSome_target_of_mem_leaving (mem_possible_of_opened hopen)
  intro hnone
  rw [hnone] at hdeclared
  exact Bool.false_ne_true hdeclared

/-- On a well-formed chart a step with just one open transition is made along it. -/
theorem Session.exists_step_of_opened {h : Handler σ ε} {event : Option ε} {s : Session σ ε}
    {t : Transition σ ε} (hc : s.machine.chart.WellFormed) (hknown : s.unknown? h event = none)
    (hopen : s.opened h event = [t]) (now : Instant) :
    ∃ deferred s', s.step h now event = (.ok (.moved t.source t.target deferred), s') ∧
      s.machine.chart.state? t.target = some s'.machine.state := by
  obtain ⟨state, hstate⟩ := Option.ne_none_iff_exists'.mp (state?_target_ne_none hc hopen)
  exact ⟨_, _, step_of_stepped (.moved hknown hopen hstate rfl), hstate⟩

/-- On a well-formed chart no step wants for a state, and the calls of a transition put off
only faults of their own. -/
theorem Session.Stepped.ne_unknownState {h : Handler σ ε} {now : Instant} {event : Option ε}
    {s s' : Session σ ε} {r : Except Fault StepResult} (hs : Stepped h now event s r s')
    (hc : s.machine.chart.WellFormed) (name : String) :
    r ≠ .error (.unknownState name) ∧
      ∀ source target, r ≠ .ok (.moved source target (some (.unknownState name))) := by
  cases hs with
  | unknown | stuck | finished | ambiguous => simp
  | @lost t hknown hopen htarget =>
    exact absurd htarget (state?_target_ne_none hc hopen)
  | @moved t target fault memory hknown hopen htarget hcalls =>
    refine ⟨by simp, fun source target heq => ?_⟩
    simp only [Except.ok.injEq, StepResult.moved.injEq] at heq
    have hf : (Call.makeAll h t event (t.calls s.machine.chart.hooks)
        (s.told h event).memory).1 = some (.unknownState name) := by
      rw [hcalls]
      exact heq.2.2
    obtain ⟨call, -, hcall⟩ := Call.exists_canEndIn_of_makeAll hf
    cases hcall

theorem Session.Runs.ne_unknownState {h : Handler σ ε} {clock : Nat → Instant}
    {event : Option ε} {taken : Nat} {s s' : Session σ ε}
    {results : List (Except Fault StepResult)} {r : Except Fault Outcome}
    (hr : Runs h clock event taken s results r s') (hc : s.machine.chart.WellFormed)
    (name : String) : r ≠ .error (.unknownState name) := by
  induction hr with
  | last hstep hend =>
    have hne := (stepped_of_step hstep).ne_unknownState hc name
    intro heq
    rcases (ending_eq_error_iff hend _).mp heq with hlast | ⟨source, target, hlast⟩
    · exact hne.1 hlast
    · exact hne.2 source target hlast
  | more hstep hgo hrest ih =>
    apply ih
    rwa [(stepped_of_step hstep).chart_eq]

namespace Blueprint

variable {b : Blueprint σ ε}

theorem Yields.state?_eq (hb : b.chart.WellFormed) {m : Machine σ ε} (hm : b.Yields m) :
    b.chart.state? m.state.name = some m.state := by
  refine (hm.invariant (fun m => b.chart.state? m.state.name = some m.state)
    (fun state hstate => hb.state?_of_mem hstate) fun m m' hchart ih hchange => ?_).2
  cases hchange with
  | @commit t target now ht htarget =>
    rw [hchart] at htarget
    show b.chart.state? target.name = some target
    rw [Chart.name_of_state? htarget, htarget]
  | move hstate =>
    rw [hchart] at hstate
    exact hb.state?_of_mem hstate
  | limit n => exact ih

/-! ## The entrance -/

/-- The entrance with machines that start in the street. -/
def entrance : Blueprint Bool String := { chart := Chart.entrance, factory := Chart.start }

theorem entrance_reachable : entrance.Reachable :=
  ⟨[.declareState "street" { final := true }, .declareState "hall" { transient := true },
    .inherit, .declareState "room" { final := true },
    .declareTransition { source := "street", target := "garden" },
    .declareTransition
      { source := "street", target := "hall", condition := some (.named "locked"),
        negate := true },
    .define fun root => do
      let inside ← root.startAt "hall"
      discard (inside.goTo "room"),
    .declareState "street" { initial := true }], rfl⟩

theorem entrance_yields_guest : entrance.Yields .guest := by
  have hrun : Session.run .porter (fun _ => .noon) none 2
      { machine := .visitor, memory := false } =
        some (.ok { state := "room", steps := 2, status := .final },
          { machine := .guest, memory := false }) := rfl
  exact .next (.start (m := .visitor) rfl) (.run hrun)

/-! ## Main statement -/

/-- A reachable blueprint has a well-formed chart, and a machine that comes about on it
stands in a state just as the chart declares it.  Therefore neither a step nor a run ever
fails for want of a state. -/
theorem Reachable.wellFormed_and_placed (hb : b.Reachable) :
    b.chart.WellFormed ∧
      ∀ m, b.Yields m →
        m.chart = b.chart ∧ m.chart.state? m.state.name = some m.state ∧
        (∀ (h : Handler σ ε) now event memory name,
          (Session.step h now event { machine := m, memory }).1 ≠
            .error (.unknownState name)) ∧
        ∀ (h : Handler σ ε) clock event memory budget name s',
          Session.run h clock event budget { machine := m, memory } ≠
            some (.error (.unknownState name), s') := by
  have hc := hb.wellFormed
  refine ⟨hc, fun m hm => ⟨hm.chart_eq, ?_, ?_, ?_⟩⟩
  · rw [hm.chart_eq]
    exact hm.state?_eq hc
  · intro h now event memory name
    rcases hstep : Session.step h now event { machine := m, memory } with ⟨r, s'⟩
    rw [← hm.chart_eq] at hc
    exact ((Session.stepped_of_step hstep).ne_unknownState hc name).1
  · intro h clock event memory budget name s' hrun
    obtain ⟨results, hruns⟩ := Session.exists_runs_of_runFrom hrun
    rw [← hm.chart_eq] at hc
    exact hruns.ne_unknownState hc name rfl

theorem entrance_wellFormed_and_placed :
    entrance.Reachable ∧ entrance.Yields .guest ∧ Chart.entrance.WellFormed ∧
      Chart.entrance.state? "room" = some { name := "room", flags := { final := true } } := by
  have hentrance := entrance_reachable.wellFormed_and_placed
  have hguest := hentrance.2 _ entrance_yields_guest
  exact ⟨entrance_reachable, entrance_yields_guest, hentrance.1, hguest.2.1⟩

end Blueprint
end Turnstile
