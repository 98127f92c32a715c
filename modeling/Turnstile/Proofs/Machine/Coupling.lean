import Turnstile.Proofs.Machine.Step

/-!
# Machines that go the same way

A step reads the chart and the state of its machine and nothing else of it, and all
that it ever does to the machine is to commit a transition.  A coupling is a relation
between machines in one state of one chart that outlasts such a commit.  Coupled
machines answer every step alike and stay coupled (`Coupling.step`); what a machine
remembers beside its place then matters only as far as the relation speaks of it.
-/

namespace Turnstile

variable {σ ε : Type}

/-- A relation of machines in one state of one chart that is kept when both make the same
transition, each at a time of its own. -/
structure Machine.Coupling (P : Machine σ ε → Machine σ ε → Prop) : Prop where
  chart : ∀ {m m'}, P m m' → m.chart = m'.chart
  state : ∀ {m m'}, P m m' → m.state = m'.state
  commit : ∀ {m m'}, P m m' → ∀ (t : Transition σ ε) (target : State) (now now' : Instant),
    P (m.commit t target now) (m'.commit t target now')

namespace Session

/-- The machines are related and the handlers remember the same. -/
structure Paired (P : Machine σ ε → Machine σ ε → Prop) (s u : Session σ ε) : Prop where
  machine : P s.machine u.machine
  memory : s.memory = u.memory

namespace Paired

variable {P : Machine σ ε → Machine σ ε → Prop} {s u : Session σ ε}

theorem possible_eq (hP : Machine.Coupling P) (hs : Paired P s u) :
    s.machine.possible = u.machine.possible := by
  rw [Machine.possible, Machine.possible, hP.chart hs.machine, hP.state hs.machine]

theorem unknown?_eq (hP : Machine.Coupling P) (hs : Paired P s u) (h : Handler σ ε)
    (event : Option ε) : s.unknown? h event = u.unknown? h event := by
  rw [unknown?, unknown?, hs.possible_eq hP, hs.memory]

theorem opened_eq (hP : Machine.Coupling P) (hs : Paired P s u) (h : Handler σ ε)
    (event : Option ε) : s.opened h event = u.opened h event := by
  rw [opened, opened, hs.possible_eq hP, hs.memory]

theorem told (hP : Machine.Coupling P) (hs : Paired P s u) (h : Handler σ ε)
    (event : Option ε) : Paired P (s.told h event) (u.told h event) := by
  constructor
  · exact hs.machine
  · show h.tell event s.memory _ = h.tell event u.memory _
    rw [hs.possible_eq hP, hs.memory]

theorem proceed (hP : Machine.Coupling P) (hs : Paired P s u) (h : Handler σ ε)
    (event : Option ε) (now now' : Instant) (ts : List (Transition σ ε)) :
    (s.proceed h now event ts).1 = (u.proceed h now' event ts).1 ∧
      Paired P (s.proceed h now event ts).2 (u.proceed h now' event ts).2 := by
  have hstate := hP.state hs.machine
  match ts with
  | [] =>
    rw [Session.proceed, Session.proceed, hstate]
    split
    · exact ⟨rfl, hs⟩
    · exact ⟨rfl, hs.machine, congrArg h.finished hs.memory⟩
  | [t] =>
    rw [Session.proceed, Session.proceed, perform, perform, hP.chart hs.machine, hs.memory]
    split
    · exact ⟨rfl, hs⟩
    · exact ⟨rfl, hP.commit hs.machine t _ now now', rfl⟩
  | t :: v :: ts =>
    refine ⟨?_, hs⟩
    show Except.error (Fault.ambiguous s.machine.state.name _) = _
    rw [hstate]
    rfl

end Paired
end Session

/-- Coupled machines answer a step alike, whenever each makes it, and stay coupled. -/
theorem Machine.Coupling.step {P : Machine σ ε → Machine σ ε → Prop} (hP : Machine.Coupling P)
    {s u : Session σ ε} (hs : Session.Paired P s u) (h : Handler σ ε) (event : Option ε)
    (now now' : Instant) :
    (s.step h now event).1 = (u.step h now' event).1 ∧
      Session.Paired P (s.step h now event).2 (u.step h now' event).2 := by
  have hunknown := hs.unknown?_eq hP h event
  cases hu : u.unknown? h event with
  | some name =>
    rw [hu] at hunknown
    rw [Session.step_of_unknown hunknown, Session.step_of_unknown hu]
    exact ⟨rfl, hs.told hP h event⟩
  | none =>
    rw [hu] at hunknown
    rw [Session.step_of_known hunknown, Session.step_of_known hu, hs.opened_eq hP]
    exact (hs.told hP h event).proceed hP h event now now' _

end Turnstile
