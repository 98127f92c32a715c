import Turnstile.Machine.Step

/-!
# What one step can do

A survey is told apart by two things: the first name among the conditions that the
handler does not know, and the transitions that are open.  `survey_eq` says that
nothing else decides it, and `Stepped` lists the six ways in which a step can go from
there.  Whatever is proved of steps is proved by cases on `Stepped`, with the guards
of each case at hand, and never by opening `Session.step` again.
-/

namespace Turnstile

variable {σ ε : Type}

/-! ## Surveys -/

namespace Transition

/-- The name that stands for the condition, if the handler does not know it. -/
def unknown? (h : Handler σ ε) (event : Option ε) (x : σ) (t : Transition σ ε) :
    Option String :=
  match t.condition with
  | some (.named name) => if (h.condition name event x).isNone then some name else none
  | _ => none

/-- There is no condition, or its value differs from `negate`. -/
def isOpen (h : Handler σ ε) (event : Option ε) (x : σ) (t : Transition σ ε) : Bool :=
  match t.condition with
  | none => true
  | some c => (c.value h event x).any (· != t.negate)

theorem eligible_eq (h : Handler σ ε) (event : Option ε) (x : σ) (t : Transition σ ε) :
    t.eligible h event x =
      match t.unknown? h event x with
      | some name => .error (.unknownCallable .condition name)
      | none => .ok (t.isOpen h event x) := by
  unfold eligible unknown? isOpen
  cases t.condition with
  | none => rfl
  | some c =>
    cases c with
    | predicate tag holds => rfl
    | named name =>
      simp only [Condition.value, Condition.label]
      cases h.condition name event x <;> rfl

theorem condition_of_unknown? {h : Handler σ ε} {event : Option ε} {x : σ} {t : Transition σ ε}
    {name : String} (hname : t.unknown? h event x = some name) :
    t.condition = some (.named name) := by
  unfold unknown? at hname
  split at hname
  · next label hcondition =>
    split at hname
    · obtain rfl := Option.some.inj hname
      exact hcondition
    · simp at hname
  · simp at hname

end Transition

/-- A survey fails at the first unknown name and otherwise finds what is open. -/
theorem Handler.survey_eq (h : Handler σ ε) (event : Option ε) (x : σ)
    (ts : List (Transition σ ε)) :
    h.survey event x ts =
      match ts.findSome? (Transition.unknown? h event x) with
      | some name => .error (.unknownCallable .condition name)
      | none => .ok (ts.filter (Transition.isOpen h event x)) := by
  induction ts with
  | nil => rfl
  | cons t ts ih =>
    rw [survey, Transition.eligible_eq, List.findSome?_cons]
    cases t.unknown? h event x with
    | some name => rfl
    | none =>
      simp only [ih, List.filter_cons]
      cases ts.findSome? (Transition.unknown? h event x) <;> rfl

theorem Transition.value_ne_none_of_unknown? {h : Handler σ ε} {event : Option ε} {x : σ}
    {t : Transition σ ε} (hknown : t.unknown? h event x = none) {k : Condition σ ε}
    (hk : t.condition = some k) : k.value h event x ≠ none := by
  cases k with
  | predicate tag holds => exact Option.some_ne_none _
  | named name =>
    intro hnone
    rw [Condition.value] at hnone
    simp [unknown?, hk, hnone] at hknown

/-- Conditions are asked for one after the other as long as they are known. -/
theorem Handler.answers_append {h : Handler σ ε} {event : Option ε} {x : σ}
    {ts : List (Transition σ ε)} (hknown : ∀ t ∈ ts, t.unknown? h event x = none)
    (us : List (Transition σ ε)) :
    h.answers event x (ts ++ us) =
      (ts.filterMap Transition.condition).map (fun k => (k, k.value h event x)) ++
        h.answers event x us := by
  induction ts with
  | nil => rfl
  | cons t ts ih =>
    obtain ⟨ht, hts⟩ := List.forall_mem_cons.mp hknown
    rw [List.cons_append, answers, List.filterMap_cons, ih hts]
    cases hcondition : t.condition with
    | none => rfl
    | some k =>
      have hvalue := Transition.value_ne_none_of_unknown? ht hcondition
      obtain ⟨b, hb⟩ := Option.ne_none_iff_exists'.mp hvalue
      simp only [hb, List.map_cons, List.cons_append]

/-! ## Calls -/

namespace Call

/-- The faults in which a call for a transition can end. -/
inductive CanEndIn (t : Transition σ ε) : Call σ ε → Fault → Prop
  | hook (phase : Phase) (name : String) :
      CanEndIn t (.hook phase (.named name)) (.unknownCallable .hook name)
  | action (name : String) : CanEndIn t (.action (.named name)) (.unknownCallable .action name)
  | failed (a : Action σ ε) (failure : Failure) :
      CanEndIn t (.action a) (.failed t.source t.target failure)

variable {h : Handler σ ε} {t : Transition σ ε} {event : Option ε} {fault : Fault}

theorem canEndIn_of_make {c : Call σ ε} {x : σ} (hf : (c.make h t event x).1 = some fault) :
    c.CanEndIn t fault := by
  cases c with
  | hook phase k =>
    rw [make] at hf
    split at hf
    · simp at hf
    · next heq =>
      obtain rfl := Option.some.inj hf
      cases k with
      | named name => exact .hook phase name
      | callback run => simp [Hook.fire] at heq
  | action a =>
    rw [make] at hf
    split at hf
    · simp at hf
    · obtain rfl := Option.some.inj hf
      exact .failed a _
    · next heq =>
      obtain rfl := Option.some.inj hf
      cases a with
      | named name => exact .action name
      | callback run => simp [Action.invoke] at heq

/-- A fault of a row of calls is the fault of one of them. -/
theorem exists_canEndIn_of_makeAll {cs : List (Call σ ε)} {x : σ}
    (hf : (makeAll h t event cs x).1 = some fault) : ∃ c ∈ cs, c.CanEndIn t fault := by
  induction cs generalizing x with
  | nil => simp [makeAll] at hf
  | cons c cs ih =>
    rw [makeAll] at hf
    rcases Option.or_eq_some_iff.mp hf with hf | ⟨-, hf⟩
    · exact ⟨c, List.mem_cons_self, canEndIn_of_make hf⟩
    · obtain ⟨d, hd, hfault⟩ := ih hf
      exact ⟨d, List.mem_cons_of_mem _ hd, hfault⟩

theorem mem_calls_iff {t : Transition σ ε} {hooks : List (Hook σ ε)} {c : Call σ ε} :
    c ∈ t.calls hooks ↔
      (∃ phase, ∃ k ∈ hooks, c = .hook phase k) ∨ ∃ a, t.action = some a ∧ c = .action a := by
  simp only [Transition.calls, List.mem_append, List.mem_map, Option.mem_toList]
  constructor
  · rintro ((⟨k, hk, rfl⟩ | ⟨a, ha, rfl⟩) | ⟨k, hk, rfl⟩)
    · exact .inl ⟨.before, k, hk, rfl⟩
    · exact .inr ⟨a, ha, rfl⟩
    · exact .inl ⟨.after, k, hk, rfl⟩
  · rintro (⟨phase, k, hk, rfl⟩ | ⟨a, ha, rfl⟩)
    · cases phase with
      | before => exact .inl (.inl ⟨k, hk, rfl⟩)
      | after => exact .inr ⟨k, hk, rfl⟩
    · exact .inl (.inr ⟨a, ha, rfl⟩)

end Call

/-! ## Cases of a step -/

theorem State.isTransient_or_not_isFinal (state : State) :
    (state.isTransient || !state.isFinal) = !(state.isFinal && !state.isTransient) := by
  rw [Bool.not_and, Bool.not_not, Bool.or_comm]

namespace Session

/-- The first name among the conditions of a step that the handler does not know. -/
def unknown? (h : Handler σ ε) (event : Option ε) (s : Session σ ε) : Option String :=
  s.machine.possible.findSome? (Transition.unknown? h event s.memory)

theorem exists_condition_of_unknown? {h : Handler σ ε} {event : Option ε} {s : Session σ ε}
    {name : String} (hname : s.unknown? h event = some name) :
    ∃ t ∈ s.machine.possible, t.condition = some (.named name) := by
  obtain ⟨t, ht, hunknown⟩ := List.exists_of_findSome?_eq_some hname
  exact ⟨t, ht, Transition.condition_of_unknown? hunknown⟩

/-- The transitions that are open to a step. -/
def opened (h : Handler σ ε) (event : Option ε) (s : Session σ ε) : List (Transition σ ε) :=
  s.machine.possible.filter (Transition.isOpen h event s.memory)

/-- The session behind the survey of a step, which has told the handler of the answers
and done nothing else. -/
def told (h : Handler σ ε) (event : Option ε) (s : Session σ ε) : Session σ ε :=
  { s with memory := h.tell event s.memory (h.answers event s.memory s.machine.possible) }

@[simp] theorem machine_told (h : Handler σ ε) (event : Option ε) (s : Session σ ε) :
    (s.told h event).machine = s.machine := rfl

theorem mem_possible_of_opened {h : Handler σ ε} {event : Option ε} {s : Session σ ε}
    {t : Transition σ ε} (hopen : s.opened h event = [t]) : t ∈ s.machine.possible := by
  have ht : t ∈ s.opened h event := hopen ▸ List.mem_singleton_self t
  exact (List.mem_filter.mp ht).1

/-- The ways in which a step can go, each with what decides for it and with the session
that it leaves. -/
inductive Stepped (h : Handler σ ε) (now : Instant) (event : Option ε) (s : Session σ ε) :
    Except Fault StepResult → Session σ ε → Prop
  | unknown {name : String} (hname : s.unknown? h event = some name) :
      Stepped h now event s (.error (.unknownCallable .condition name)) (s.told h event)
  | stuck (hknown : s.unknown? h event = none) (hopen : s.opened h event = [])
      (hstate : (s.machine.state.isFinal && !s.machine.state.isTransient) = false) :
      Stepped h now event s (.error (.stuck s.machine.state.name)) (s.told h event)
  | finished (hknown : s.unknown? h event = none) (hopen : s.opened h event = [])
      (hstate : (s.machine.state.isFinal && !s.machine.state.isTransient) = true) :
      Stepped h now event s (.ok (.finished s.machine.state.name))
        { s with memory := h.finished (s.told h event).memory }
  | ambiguous {t u : Transition σ ε} {ts : List (Transition σ ε)}
      (hknown : s.unknown? h event = none) (hopen : s.opened h event = t :: u :: ts) :
      Stepped h now event s
        (.error (.ambiguous s.machine.state.name ((t :: u :: ts).map Transition.target)))
        (s.told h event)
  | lost {t : Transition σ ε} (hknown : s.unknown? h event = none)
      (hopen : s.opened h event = [t]) (htarget : s.machine.chart.state? t.target = none) :
      Stepped h now event s (.error (.unknownState t.target)) (s.told h event)
  | moved {t : Transition σ ε} {target : State} {fault : Option Fault} {memory : σ}
      (hknown : s.unknown? h event = none) (hopen : s.opened h event = [t])
      (htarget : s.machine.chart.state? t.target = some target)
      (hcalls : Call.makeAll h t event (t.calls s.machine.chart.hooks) (s.told h event).memory =
        (fault, memory)) :
      Stepped h now event s (.ok (.moved t.source t.target fault))
        { machine := s.machine.commit t target now, memory }

theorem step_of_unknown {h : Handler σ ε} {event : Option ε} {s : Session σ ε} {name : String}
    (hname : s.unknown? h event = some name) (now : Instant) :
    s.step h now event = (.error (.unknownCallable .condition name), s.told h event) := by
  rw [unknown?] at hname
  simp only [step, Handler.survey_eq, hname]
  rfl

theorem step_of_known {h : Handler σ ε} {event : Option ε} {s : Session σ ε}
    (hknown : s.unknown? h event = none) (now : Instant) :
    s.step h now event = (s.told h event).proceed h now event (s.opened h event) := by
  rw [unknown?] at hknown
  simp only [step, Handler.survey_eq, hknown]
  rfl

theorem stepped_of_step {h : Handler σ ε} {now : Instant} {event : Option ε}
    {s s' : Session σ ε} {r : Except Fault StepResult} (hstep : s.step h now event = (r, s')) :
    Stepped h now event s r s' := by
  cases hknown : s.unknown? h event with
  | some name =>
    rw [step_of_unknown hknown] at hstep
    obtain ⟨rfl, rfl⟩ := Prod.mk.inj hstep
    exact .unknown hknown
  | none =>
    rw [step_of_known hknown] at hstep
    match hopen : s.opened h event with
    | [] =>
      rw [hopen, proceed, machine_told, State.isTransient_or_not_isFinal] at hstep
      cases hstate : s.machine.state.isFinal && !s.machine.state.isTransient with
      | true =>
        rw [hstate] at hstep
        obtain ⟨rfl, rfl⟩ := Prod.mk.inj hstep
        exact .finished hknown hopen hstate
      | false =>
        rw [hstate] at hstep
        obtain ⟨rfl, rfl⟩ := Prod.mk.inj hstep
        exact .stuck hknown hopen hstate
    | [t] =>
      rw [hopen, proceed, perform, machine_told] at hstep
      cases htarget : s.machine.chart.state? t.target with
      | none =>
        rw [htarget] at hstep
        obtain ⟨rfl, rfl⟩ := Prod.mk.inj hstep
        exact .lost hknown hopen htarget
      | some target =>
        rw [htarget] at hstep
        obtain ⟨rfl, rfl⟩ := Prod.mk.inj hstep
        exact .moved hknown hopen htarget rfl
    | t :: u :: ts =>
      rw [hopen, proceed] at hstep
      · obtain ⟨rfl, rfl⟩ := Prod.mk.inj hstep
        exact .ambiguous hknown hopen
      · simp
      · simp

theorem step_of_stepped {h : Handler σ ε} {now : Instant} {event : Option ε}
    {s s' : Session σ ε} {r : Except Fault StepResult} (hs : Stepped h now event s r s') :
    s.step h now event = (r, s') := by
  cases hs with
  | unknown hname => exact step_of_unknown hname now
  | stuck hknown hopen hstate =>
    rw [step_of_known hknown, hopen, proceed, machine_told, State.isTransient_or_not_isFinal,
      hstate]
    rfl
  | finished hknown hopen hstate =>
    rw [step_of_known hknown, hopen, proceed, machine_told, State.isTransient_or_not_isFinal,
      hstate]
    rfl
  | ambiguous hknown hopen =>
    rw [step_of_known hknown, hopen]
    rfl
  | lost hknown hopen htarget =>
    rw [step_of_known hknown, hopen, proceed, perform, machine_told, htarget]
  | moved hknown hopen htarget hcalls =>
    rw [step_of_known hknown, hopen, proceed, perform, machine_told, htarget]
    simp only [hcalls]

/-- A step that is made has found just one open transition, and the machine has come into its
target. -/
theorem exists_opened_of_moved {h : Handler σ ε} {now : Instant} {event : Option ε}
    {s s' : Session σ ε} {source target : String} {fault : Option Fault}
    (hstep : s.step h now event = (.ok (.moved source target fault), s')) :
    ∃ t, s.opened h event = [t] ∧ t.source = source ∧ t.target = target ∧
      s.machine.chart.state? target = some s'.machine.state := by
  cases stepped_of_step hstep with
  | moved hknown hopen htarget hcalls => exact ⟨_, hopen, rfl, rfl, htarget⟩

end Session
end Turnstile
