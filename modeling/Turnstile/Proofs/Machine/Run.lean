import Turnstile.Chart.Declare
import Turnstile.Machine.Run
import Turnstile.Proofs.Machine.Coupling

/-!
# A run is a row of steps

`ending` is all that a run adds to its steps: whether a step is the last one, and what
the run then comes to.  `Runs` says the same of whole runs, without the budget, and
carries the results of all steps along.  The steps themselves are given by `steps`,
which makes them whatever they come to, so the two sides of the main statement have
no code in common but `Session.step`.

The clock has no part in where a machine goes: sessions that differ at most in the
times of their passages stay so under steps made at different times.
-/

namespace Turnstile

variable {σ ε : Type}

/-! ## Ends of passages -/

namespace History

/-- Where the passages led from and to, oldest first. -/
def ends (h : History) : List (String × String) := h.passages.map fun p => (p.source, p.target)

theorem map_cut {α β : Type} (f : α → β) (limit : Option Nat) (xs : List α) :
    (cut limit xs).map f = cut limit (xs.map f) := by
  cases limit with
  | none => rfl
  | some n => rw [cut_some, cut_some, List.map_take]

theorem ends_record (h : History) (p : Passage) :
    (h.record p).ends = (cut h.limit ((p.source, p.target) :: h.ends.reverse)).reverse := by
  rw [ends, passages, List.map_reverse, record, map_cut, List.map_cons, ends, passages,
    List.map_reverse, List.reverse_reverse]

end History

/-- The machines differ at most in the times of their passages. -/
structure Machine.Alike (m m' : Machine σ ε) : Prop where
  chart : m.chart = m'.chart
  state : m.state = m'.state
  latest : m.latest = m'.latest
  ends : m.history.ends = m'.history.ends
  limit : m.history.limit = m'.history.limit

theorem Machine.Alike.refl (m : Machine σ ε) : m.Alike m := ⟨rfl, rfl, rfl, rfl, rfl⟩

theorem Machine.Alike.commit {m m' : Machine σ ε} (ha : m.Alike m') (t : Transition σ ε)
    (target : State) (now now' : Instant) :
    (m.commit t target now).Alike (m'.commit t target now') where
  chart := ha.chart
  state := rfl
  latest := rfl
  ends := by
    show (m.history.record _).ends = (m'.history.record _).ends
    rw [History.ends_record, History.ends_record, ha.ends, ha.limit]
  limit := ha.limit

theorem Machine.Alike.coupling :
    Machine.Coupling (Machine.Alike : Machine σ ε → Machine σ ε → Prop) where
  chart := fun ha => ha.chart
  state := fun ha => ha.state
  commit := fun ha t target now now' => ha.commit t target now now'

namespace Session

/-- The handlers remember the same, and the machines differ at most in the times of
their passages. -/
structure Alike (s u : Session σ ε) : Prop where
  machine : s.machine.Alike u.machine
  memory : s.memory = u.memory

theorem Alike.step {s u : Session σ ε} (ha : s.Alike u) (h : Handler σ ε) (event : Option ε)
    (now now' : Instant) :
    (s.step h now event).1 = (u.step h now' event).1 ∧
      (s.step h now event).2.Alike (u.step h now' event).2 := by
  have hpaired : Paired Machine.Alike s u := ⟨ha.machine, ha.memory⟩
  obtain ⟨hresult, hnext⟩ := Machine.Alike.coupling.step hpaired h event now now'
  exact ⟨hresult, hnext.machine, hnext.memory⟩

/-! ## Steps in a row -/

/-- Makes `n` steps on one event, whatever they come to, and answers with what they came
to in order.  The clock says when each is made, `taken` having been made before. -/
def steps (h : Handler σ ε) (clock : Nat → Instant) (event : Option ε) (taken : Nat) :
    (n : Nat) → Session σ ε → List (Except Fault StepResult) × Session σ ε
  | 0, s => ([], s)
  | n + 1, s =>
    let (result, s) := s.step h (clock taken) event
    let (results, s) := steps h clock event (taken + 1) n s
    (result :: results, s)

theorem steps_succ (h : Handler σ ε) (clock : Nat → Instant) (event : Option ε)
    (taken n : Nat) (s : Session σ ε) :
    s.steps h clock event taken (n + 1) =
      ((s.step h (clock taken) event).1 ::
          ((s.step h (clock taken) event).2.steps h clock event (taken + 1) n).1,
        ((s.step h (clock taken) event).2.steps h clock event (taken + 1) n).2) := rfl

theorem Alike.steps {s u : Session σ ε} (ha : s.Alike u) (h : Handler σ ε)
    (clock clock' : Nat → Instant) (event : Option ε) (taken n : Nat) :
    (s.steps h clock event taken n).1 = (u.steps h clock' event taken n).1 ∧
      (s.steps h clock event taken n).2.Alike (u.steps h clock' event taken n).2 := by
  induction n generalizing taken s u with
  | zero => exact ⟨rfl, ha⟩
  | succ n ih =>
    obtain ⟨hfirst, hnext⟩ := ha.step h event (clock taken) (clock' taken)
    obtain ⟨hrest, hlast⟩ := ih hnext (taken + 1)
    rw [steps_succ, steps_succ, hfirst, hrest]
    exact ⟨rfl, hlast⟩

/-- The ends of the passage that a step has added to the history, if any. -/
def passed : Except Fault StepResult → Option (String × String)
  | .ok (.moved source target _) => some (source, target)
  | _ => none

theorem exists_added_of_step {h : Handler σ ε} {now : Instant} {event : Option ε}
    {s s' : Session σ ε} {r : Except Fault StepResult} (hstep : s.step h now event = (r, s'))
    (hl : s.machine.history.limit = none) :
    s'.machine.history.limit = none ∧
      ∃ added, s'.machine.history.passages = s.machine.history.passages ++ added ∧
        added.map (fun p => (p.source, p.target)) = (passed r).toList := by
  cases stepped_of_step hstep with
  | unknown | stuck | finished | ambiguous | lost =>
    exact ⟨hl, [], (List.append_nil _).symm, rfl⟩
  | @moved t target fault memory =>
    exact ⟨hl, [{ source := t.source, target := t.target, time := now }],
      History.passages_record_of_unbounded hl _, rfl⟩

/-- Without a bound, steps add the passages of the transitions that they make. -/
theorem exists_added_of_steps (h : Handler σ ε) (clock : Nat → Instant) (event : Option ε)
    (taken n : Nat) {s : Session σ ε} (hl : s.machine.history.limit = none) :
    ∃ added, (s.steps h clock event taken n).2.machine.history.passages =
        s.machine.history.passages ++ added ∧
      added.map (fun p => (p.source, p.target)) =
        (s.steps h clock event taken n).1.filterMap passed := by
  induction n generalizing taken s with
  | zero => exact ⟨[], (List.append_nil _).symm, rfl⟩
  | succ n ih =>
    rcases hstep : s.step h (clock taken) event with ⟨first, s₁⟩
    obtain ⟨hl₁, new, hnew, hends⟩ := exists_added_of_step hstep hl
    obtain ⟨rest, hrest, hrends⟩ := ih (taken + 1) hl₁
    rw [steps_succ, hstep]
    refine ⟨new ++ rest, ?_, ?_⟩
    · rw [hrest, hnew, List.append_assoc]
    · rw [List.map_append, hends, hrends, List.filterMap_cons]
      cases passed first <;> rfl

/-! ## Runs -/

/-- What a run comes to that has made `count` steps, the last of which came to the given
result and left the machine in `state`; none when the run goes on. -/
def ending (count : Nat) (state : State) :
    Except Fault StepResult → Option (Except Fault Outcome)
  | .error fault => some (.error fault)
  | .ok (.finished name) => some (.ok { state := name, steps := count, status := .finished })
  | .ok (.moved _ _ (some fault)) => some (.error fault)
  | .ok (.moved _ _ none) =>
    if state.advances then none else some (.ok (Outcome.restingIn state count))

theorem ending_eq_none_iff {count : Nat} {state : State} {last : Except Fault StepResult} :
    ending count state last = none ↔
      (∃ source target, last = .ok (.moved source target none)) ∧ state.advances = true := by
  match last with
  | .error fault => simp [ending]
  | .ok (.finished name) => simp [ending]
  | .ok (.moved source target (some fault)) => simp [ending]
  | .ok (.moved source target none) => simp [ending]

theorem ending_eq_error_iff {count : Nat} {state : State} {last : Except Fault StepResult}
    {r : Except Fault Outcome} (hr : ending count state last = some r) (fault : Fault) :
    r = .error fault ↔
      last = .error fault ∨ ∃ source target, last = .ok (.moved source target (some fault)) := by
  match last with
  | .error first =>
    obtain rfl := Option.some.inj hr
    simp
  | .ok (.finished name) =>
    obtain rfl := Option.some.inj hr
    simp
  | .ok (.moved source target (some first)) =>
    obtain rfl := Option.some.inj hr
    simp
  | .ok (.moved source target none) =>
    rw [ending] at hr
    split at hr
    · simp at hr
    · obtain rfl := Option.some.inj hr
      simp

theorem steps_of_ending_eq_ok {count : Nat} {state : State} {last : Except Fault StepResult}
    {o : Outcome} (hr : ending count state last = some (.ok o)) : o.steps = count := by
  match last with
  | .error fault => simp [ending] at hr
  | .ok (.finished name) =>
    obtain rfl := Except.ok.inj (Option.some.inj hr)
    rfl
  | .ok (.moved source target (some fault)) => simp [ending] at hr
  | .ok (.moved source target none) =>
    rw [ending] at hr
    split at hr
    · simp at hr
    · obtain rfl := Except.ok.inj (Option.some.inj hr)
      rfl

/-- A run that has made `taken` steps makes further ones, with the listed results, and
then comes to `r` and leaves the last session. -/
inductive Runs (h : Handler σ ε) (clock : Nat → Instant) (event : Option ε) :
    Nat → Session σ ε → List (Except Fault StepResult) → Except Fault Outcome →
      Session σ ε → Prop
  | last {taken : Nat} {s s' : Session σ ε} {last : Except Fault StepResult}
      {r : Except Fault Outcome} (hstep : s.step h (clock taken) event = (last, s'))
      (hend : ending (taken + 1) s'.machine.state last = some r) :
      Runs h clock event taken s [last] r s'
  | more {taken : Nat} {s s₁ s' : Session σ ε} {first : Except Fault StepResult}
      {rest : List (Except Fault StepResult)} {r : Except Fault Outcome}
      (hstep : s.step h (clock taken) event = (first, s₁))
      (hgo : ending (taken + 1) s₁.machine.state first = none)
      (hrest : Runs h clock event (taken + 1) s₁ rest r s') :
      Runs h clock event taken s (first :: rest) r s'

theorem runFrom_succ (h : Handler σ ε) (clock : Nat → Instant) (event : Option ε)
    (taken budget : Nat) (s : Session σ ε) :
    runFrom h clock event taken (budget + 1) s =
      ((ending (taken + 1) (s.step h (clock taken) event).2.machine.state
          (s.step h (clock taken) event).1).map (·, (s.step h (clock taken) event).2)).or
        (runFrom h clock event (taken + 1) budget (s.step h (clock taken) event).2) := by
  rw [runFrom]
  rcases s.step h (clock taken) event with ⟨result, s₁⟩
  cases result with
  | error fault => rfl
  | ok result =>
    cases result with
    | finished name => rfl
    | moved source target deferred =>
      cases deferred with
      | some fault => rfl
      | none =>
        rw [ending]
        by_cases hadv : s₁.machine.state.advances = true
        · simp only [hadv, if_true]
          rfl
        · simp only [hadv, if_false, Bool.false_eq_true]
          rfl

theorem exists_runs_of_runFrom {h : Handler σ ε} {clock : Nat → Instant} {event : Option ε}
    {taken budget : Nat} {s s' : Session σ ε} {r : Except Fault Outcome}
    (hr : runFrom h clock event taken budget s = some (r, s')) :
    ∃ results, Runs h clock event taken s results r s' := by
  induction budget generalizing taken s with
  | zero => simp [runFrom] at hr
  | succ budget ih =>
    rw [runFrom_succ] at hr
    rcases Option.or_eq_some_iff.mp hr with hlast | ⟨hgo, hr⟩
    · obtain ⟨r₁, hend, heq⟩ := Option.map_eq_some_iff.mp hlast
      obtain ⟨rfl, rfl⟩ := Prod.mk.inj heq
      exact ⟨_, .last rfl hend⟩
    · obtain ⟨results, hruns⟩ := ih hr
      exact ⟨_, .more rfl (Option.map_eq_none_iff.mp hgo) hruns⟩

namespace Runs

variable {h : Handler σ ε} {clock : Nat → Instant} {event : Option ε} {taken : Nat}
  {s s' : Session σ ε} {results : List (Except Fault StepResult)} {r : Except Fault Outcome}

theorem steps_eq (hr : Runs h clock event taken s results r s') :
    s.steps h clock event taken results.length = (results, s') := by
  induction hr with
  | last hstep hend => rw [List.length_singleton, steps_succ, hstep]; rfl
  | more hstep hgo hrest ih => rw [List.length_cons, steps_succ, hstep, ih]

/-- A run answers as soon as its budget allows all of its steps. -/
theorem runFrom_eq (hr : Runs h clock event taken s results r s') (budget : Nat) :
    runFrom h clock event taken budget s =
      if results.length ≤ budget then some (r, s') else none := by
  induction hr generalizing budget with
  | last hstep hend =>
    cases budget with
    | zero => rfl
    | succ budget =>
      rw [runFrom_succ, hstep, hend, List.length_singleton, if_pos (Nat.le_add_left 1 budget)]
      rfl
  | more hstep hgo hrest ih =>
    cases budget with
    | zero => rfl
    | succ budget =>
      rw [runFrom_succ, hstep, hgo, Option.map_none, Option.none_or, ih, List.length_cons]
      simp only [Nat.add_le_add_iff_right]

theorem length_pos (hr : Runs h clock event taken s results r s') : 1 ≤ results.length := by
  cases hr <;> exact Nat.le_add_left 1 _

/-- Before the last step a run makes transitions without a fault, and each of them leads
into a state that it passes through. -/
theorem passing (hr : Runs h clock event taken s results r s') {i : Nat}
    (hi : i + 1 < results.length) :
    (∃ source target, results[i]? = some (.ok (.moved source target none))) ∧
      (s.steps h clock event taken (i + 1)).2.machine.state.advances = true := by
  induction hr generalizing i with
  | last hstep hend => exact absurd hi (by simp)
  | @more taken s s₁ s' first rest r hstep hgo hrest ih =>
    rw [steps_succ, hstep]
    cases i with
    | zero =>
      obtain ⟨⟨source, target, rfl⟩, hadv⟩ := ending_eq_none_iff.mp hgo
      exact ⟨⟨source, target, rfl⟩, hadv⟩
    | succ i => exact ih (Nat.lt_of_succ_lt_succ hi)

theorem eq_error_iff (hr : Runs h clock event taken s results r s') (fault : Fault) :
    r = .error fault ↔
      results.getLast? = some (.error fault) ∨
        ∃ source target, results.getLast? = some (.ok (.moved source target (some fault))) := by
  induction hr with
  | last hstep hend => simp [ending_eq_error_iff hend]
  | more hstep hgo hrest ih =>
    rw [ih, List.getLast?_cons_of_ne_nil (List.ne_nil_of_length_pos hrest.length_pos)]

theorem steps_of_eq_ok (hr : Runs h clock event taken s results r s') {o : Outcome}
    (ho : r = .ok o) : o.steps = taken + results.length := by
  induction hr with
  | last hstep hend =>
    subst ho
    exact steps_of_ending_eq_ok hend
  | more hstep hgo hrest ih =>
    rw [ih ho, List.length_cons]
    omega

end Runs

/-- What `n` steps in a row have in common with a run from the same session that has
come to `r` and left `s'`. -/
structure Iterated (h : Handler σ ε) (clock : Nat → Instant) (event : Option ε)
    (s : Session σ ε) (n : Nat) (r : Except Fault Outcome) (s' : Session σ ε) : Prop where
  positive : 1 ≤ n
  last_session : (s.steps h clock event 0 n).2.Alike s'
  passing : ∀ i, i + 1 < n →
    (∃ source target,
      (s.steps h clock event 0 n).1[i]? = some (.ok (.moved source target none))) ∧
    (s.steps h clock event 0 (i + 1)).2.machine.state.isTransient = true ∧
    (s.steps h clock event 0 (i + 1)).2.machine.state.isFinal = false
  error_iff : ∀ fault, r = .error fault ↔
    (s.steps h clock event 0 n).1.getLast? = some (.error fault) ∨
      ∃ source target,
        (s.steps h clock event 0 n).1.getLast? = some (.ok (.moved source target (some fault)))
  otherwise : (∀ fault, r ≠ .error fault) → ∃ o, r = .ok o ∧ o.steps = n
  history : s.machine.history.limit = none →
    ∃ added, s'.machine.history.passages = s.machine.history.passages ++ added ∧
      added.map (fun p => (p.source, p.target)) =
        (s.steps h clock event 0 n).1.filterMap passed

theorem Runs.iterated {h : Handler σ ε} {clock : Nat → Instant} {event : Option ε}
    {s s' : Session σ ε} {results : List (Except Fault StepResult)}
    {r : Except Fault Outcome} (hr : Runs h clock event 0 s results r s')
    (clock' : Nat → Instant) : Iterated h clock' event s results.length r s' := by
  have same := fun n => Alike.steps ⟨.refl s.machine, rfl⟩ h clock' clock event 0 n
  have hresults : (s.steps h clock' event 0 results.length).1 = results := by
    rw [(same _).1, hr.steps_eq]
  refine ⟨hr.length_pos, ?_, fun i hi => ?_, fun fault => ?_, fun hne => ?_, fun hl => ?_⟩
  · have hlast := (same results.length).2
    rwa [hr.steps_eq] at hlast
  · obtain ⟨hmoved, hadv⟩ := hr.passing hi
    rw [hresults, (same (i + 1)).2.machine.state]
    rw [State.advances, Bool.and_eq_true, Bool.not_eq_true'] at hadv
    exact ⟨hmoved, hadv⟩
  · rw [hresults]
    exact hr.eq_error_iff fault
  · cases r with
    | error fault => exact absurd rfl (hne fault)
    | ok o => exact ⟨o, rfl, by simpa using hr.steps_of_eq_ok rfl⟩
  · have hadded := exists_added_of_steps h clock event 0 results.length hl
    rw [hr.steps_eq] at hadded
    rwa [hresults]

end Session

/-! ## An entrance -/

/-- A way from the street through a hall into a room.  The door to the hall may be
locked. -/
def Chart.entrance : Chart Bool String :=
  { Chart.empty.declareStates
      [{ name := "street", flags := { initial := true } },
        { name := "hall", flags := { transient := true } },
        { name := "room", flags := { final := true } }] with
    table :=
      [{ source := "street", target := "hall", condition := some (.named "locked"),
          negate := true },
        { source := "hall", target := "room" }].foldl Table.add Ledger.empty }

/-- Remembers whether the door is locked. -/
def Handler.porter : Handler Bool String :=
  { condition := fun name _ locked => if name = "locked" then some locked else none }

/-- Stands in the street and has not been anywhere. -/
def Machine.visitor : Machine Bool String :=
  { chart := Chart.entrance, state := { name := "street", flags := { initial := true } },
    latest := none, history := History.empty }

def Instant.noon : Instant :=
  { date := { year := 2000, month := 1, day := 1 }, second := 43200, nanosecond := 0 }

/-- Has come into the room through the hall, both at noon. -/
def Machine.guest : Machine Bool String :=
  { chart := Chart.entrance, state := { name := "room", flags := { final := true } },
    latest := some { source := "hall", target := "room" },
    history := History.ofPassages
      [{ source := "street", target := "hall", time := .noon },
        { source := "hall", target := "room", time := .noon }] none }

namespace Session

/-! ## Main statement -/

/-- A run that comes to an end is a row of steps: some number of them, made at any
times, leave the same session, and they account for what the run comes to and for all
that it adds to the history. -/
theorem exists_iterated_of_run {h : Handler σ ε} {clock : Nat → Instant} {event : Option ε}
    {budget : Nat} {s s' : Session σ ε} {r : Except Fault Outcome}
    (hr : s.run h clock event budget = some (r, s')) :
    ∃ n, (s.steps h clock event 0 n).2 = s' ∧
      ∀ clock' : Nat → Instant, Iterated h clock' event s n r s' := by
  obtain ⟨results, hruns⟩ := exists_runs_of_runFrom hr
  exact ⟨results.length, congrArg Prod.snd hruns.steps_eq, hruns.iterated⟩

theorem exists_iterated_visitor :
    run .porter (fun _ => .noon) none 2 { machine := .visitor, memory := false } =
      some (.ok { state := "room", steps := 2, status := .final },
        { machine := .guest, memory := false }) ∧
    ∃ n, (steps .porter (fun _ => .noon) none 0 n { machine := .visitor, memory := false }).2 =
        { machine := .guest, memory := false } ∧
      ∀ clock', Iterated .porter clock' none { machine := .visitor, memory := false } n
        (.ok { state := "room", steps := 2, status := .final })
        { machine := .guest, memory := false } := by
  have hrun : run .porter (fun _ => .noon) none 2 { machine := .visitor, memory := false } =
      some (.ok { state := "room", steps := 2, status := .final },
        { machine := .guest, memory := false }) := rfl
  exact ⟨hrun, exists_iterated_of_run hrun⟩

end Session
end Turnstile
