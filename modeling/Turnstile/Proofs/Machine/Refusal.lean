import Turnstile.Proofs.Machine.Order

/-!
# What a step has done when it fails

A step that fails has only looked.  The machine is as it was, and all that the handler has been
told are answers about conditions: those of the transitions from the machine's state, in the
order of the table, as far as the step has come with them.  Nothing else has been called.  For
calls that leave no trace in the memory this is said by comparison: hooks, actions and what the
handler does at the end of a run may all be others, and the step fails alike.
-/

namespace Turnstile

variable {σ ε : Type}

/-! ## Transitions without their actions -/

namespace Transition

/-- The transition without its action. -/
def idle (t : Transition σ ε) : Transition σ ε := { t with action := none }

variable {h h' : Handler σ ε} {event : Option ε} {x : σ}

theorem unknown?_idle (hcondition : h'.condition = h.condition) (t : Transition σ ε) :
    t.idle.unknown? h' event x = t.unknown? h event x := by
  rw [unknown?, unknown?, hcondition]
  rfl

theorem isOpen_idle (hcondition : h'.condition = h.condition) (t : Transition σ ε) :
    t.idle.isOpen h' event x = t.isOpen h event x := by
  rw [isOpen, isOpen]
  cases hguard : t.condition with
  | none => simp only [idle, hguard]
  | some k => cases k <;> simp only [idle, hguard, Condition.value, hcondition]

end Transition

theorem Handler.answers_map_idle {h h' : Handler σ ε} (hcondition : h'.condition = h.condition)
    (event : Option ε) (x : σ) (ts : List (Transition σ ε)) :
    h'.answers event x (ts.map Transition.idle) = h.answers event x ts := by
  induction ts with
  | nil => rfl
  | cons t ts ih =>
    rw [List.map_cons, answers, answers, ih]
    cases hguard : t.condition with
    | none => simp only [Transition.idle, hguard]
    | some k => cases k <;> simp only [Transition.idle, hguard, Condition.value, hcondition]

namespace Session

/-- The sessions agree in all that a survey reads.  What their transitions and charts call may
be different. -/
structure SameGuards (s u : Session σ ε) : Prop where
  state : s.machine.state = u.machine.state
  memory : s.memory = u.memory
  possible : s.machine.possible.map Transition.idle = u.machine.possible.map Transition.idle

namespace SameGuards

variable {h h' : Handler σ ε} {s u : Session σ ε}

theorem unknown?_eq (hs : s.SameGuards u) (hcondition : h'.condition = h.condition)
    (event : Option ε) : u.unknown? h' event = s.unknown? h event := by
  have hrow : ∀ (h'' : Handler σ ε) (x : σ) (ts : List (Transition σ ε)),
      ts.findSome? (Transition.unknown? h'' event x) =
        (ts.map Transition.idle).findSome? (Transition.unknown? h'' event x) := by
    intro h'' x ts
    rw [List.findSome?_map]
    exact congrArg (ts.findSome? ·) (funext fun t => (Transition.unknown?_idle rfl t).symm)
  have hname : Transition.unknown? h' event s.memory = Transition.unknown? h event s.memory := by
    funext t
    rw [Transition.unknown?, Transition.unknown?, hcondition]
  rw [unknown?, unknown?, hrow, hrow h, hs.possible, ← hs.memory, hname]

theorem map_idle_opened (hs : s.SameGuards u) (hcondition : h'.condition = h.condition)
    (event : Option ε) :
    (u.opened h' event).map Transition.idle = (s.opened h event).map Transition.idle := by
  have hfilter : ∀ (h'' : Handler σ ε) (x : σ) (ts : List (Transition σ ε)),
      h''.condition = h.condition →
      (ts.filter (Transition.isOpen h'' event x)).map Transition.idle =
        (ts.map Transition.idle).filter (Transition.isOpen h event x) := by
    intro h'' x ts hsame
    rw [List.filter_map]
    exact congrArg (fun p => (ts.filter p).map Transition.idle)
      (funext fun t => (Transition.isOpen_idle hsame.symm t).symm)
  rw [opened, opened, hfilter h' _ _ hcondition, hfilter h _ _ rfl, hs.possible, hs.memory]

theorem told_eq (hs : s.SameGuards u) (hcondition : h'.condition = h.condition)
    (hasked : h'.asked = h.asked) (event : Option ε) :
    u.told h' event = { u with memory := (s.told h event).memory } := by
  have hanswers : h'.answers event u.memory u.machine.possible =
      h.answers event s.memory s.machine.possible := by
    rw [← Handler.answers_map_idle hcondition.symm, ← hs.possible,
      Handler.answers_map_idle rfl, hs.memory]
  simp only [told, Handler.tell, hanswers, hasked, hs.memory]

end SameGuards

/-! ## Steps that fail -/

/-- The conditions that have been asked for when a step fails.  They are all conditions of the
transitions from the state in order, unless the handler does not know one of them, which is
then the last that it has been asked for. -/
def AskedUpTo (h : Handler σ ε) (event : Option ε) (s : Session σ ε) (fault : Fault)
    (asked : List (Condition σ ε)) : Prop :=
  let conditions := s.machine.possible.filterMap Transition.condition
  match fault with
  | .stuck name | .ambiguous name _ => name = s.machine.state.name ∧ asked = conditions
  | .unknownCallable .condition name =>
    ∃ before after, conditions = before ++ .named name :: after ∧
      asked = before ++ [.named name] ∧ h.condition name event s.memory = none ∧
      ∀ k ∈ before, k.value h event s.memory ≠ none
  | _ => False

/-- The session that the survey of a step leaves, if it has asked for the conditions. -/
def toldOf (h : Handler σ ε) (event : Option ε) (s : Session σ ε)
    (asked : List (Condition σ ε)) : Session σ ε :=
  { s with memory := h.tell event s.memory (asked.map fun k => (k, k.value h event s.memory)) }

variable {h : Handler σ ε} {event : Option ε} {s s' : Session σ ε}

theorem forall_unknown?_eq_none (hknown : s.unknown? h event = none) :
    ∀ t ∈ s.machine.possible, t.unknown? h event s.memory = none :=
  List.findSome?_eq_none_iff.mp hknown

theorem told_of_known (hknown : s.unknown? h event = none) :
    s.told h event = s.toldOf h event (s.machine.possible.filterMap Transition.condition) := by
  have hrow := Handler.answers_append (forall_unknown?_eq_none hknown) []
  rw [List.append_nil, Handler.answers, List.append_nil] at hrow
  rw [told, hrow]
  rfl

theorem exists_told_of_unknown {name : String} (hname : s.unknown? h event = some name) :
    ∃ asked, s.told h event = s.toldOf h event asked ∧
      s.AskedUpTo h event (.unknownCallable .condition name) asked := by
  obtain ⟨before, t, after, hpossible, hunknown, hbefore⟩ := List.findSome?_eq_some_iff.mp hname
  have hcondition := Transition.condition_of_unknown? hunknown
  have hvalue : h.condition name event s.memory = none := by
    rw [Transition.unknown?, hcondition] at hunknown
    simpa using hunknown
  refine ⟨before.filterMap Transition.condition ++ [.named name], ?_,
    before.filterMap Transition.condition, after.filterMap Transition.condition, ?_, rfl,
    hvalue, ?_⟩
  · rw [told, toldOf, hpossible, Handler.answers_append hbefore, Handler.answers, hcondition]
    simp [Condition.value, hvalue]
  · rw [hpossible, List.filterMap_append, List.filterMap_cons, hcondition]
  · intro k hk
    obtain ⟨u, hu, hguard⟩ := List.mem_filterMap.mp hk
    exact Transition.value_ne_none_of_unknown? (hbefore u hu) hguard

/-- A step that fails, but not for want of a state, leaves the session behind its survey. -/
theorem Stepped.exists_asked {now : Instant} {fault : Fault}
    (hs : Stepped h now event s (.error fault) s') (hfault : ∀ name, fault ≠ .unknownState name) :
    s' = s.told h event ∧
      ∃ asked, s.told h event = s.toldOf h event asked ∧ s.AskedUpTo h event fault asked := by
  cases hs with
  | unknown hname => exact ⟨rfl, exists_told_of_unknown hname⟩
  | stuck hknown | ambiguous hknown => exact ⟨rfl, _, told_of_known hknown, rfl, rfl⟩
  | @lost t => exact absurd rfl (hfault t.target)

/-- Where a step fails, but not for want of a state, it fails alike with other calls. -/
theorem Stepped.of_sameGuards {now : Instant} {fault : Fault}
    (hs : Stepped h now event s (.error fault) s') (hfault : ∀ name, fault ≠ .unknownState name)
    {h' : Handler σ ε} {u : Session σ ε} (hcondition : h'.condition = h.condition)
    (hasked : h'.asked = h.asked) (hu : s.SameGuards u) (now' : Instant) :
    Stepped h' now' event u (.error fault) { u with memory := s'.memory } := by
  have hunknown := hu.unknown?_eq hcondition event
  have hopened := hu.map_idle_opened hcondition event
  have htold := hu.told_eq hcondition hasked event
  cases hs with
  | unknown hname =>
    rw [← htold]
    exact .unknown (hunknown.trans hname)
  | stuck hknown hopen hstate =>
    rw [hopen, List.map_nil, List.map_eq_nil_iff] at hopened
    rw [hu.state] at hstate ⊢
    rw [← htold]
    exact .stuck (hunknown.trans hknown) hopened hstate
  | @ambiguous t v ts hknown hopen =>
    rw [hopen] at hopened
    have htargets : (u.opened h' event).map Transition.target =
        (t :: v :: ts).map Transition.target := by
      have hrow := congrArg (List.map Transition.target) hopened
      rwa [List.map_map, List.map_map] at hrow
    obtain ⟨t', row, hrow, -, hopened⟩ := List.map_eq_cons_iff.mp hopened
    obtain ⟨v', ts', rfl, -, -⟩ := List.map_eq_cons_iff.mp hopened
    rw [← htargets, hu.state, ← htold, hrow]
    exact .ambiguous (hunknown.trans hknown) hrow
  | @lost t => exact absurd rfl (hfault t.target)

end Session

/-! ## Main statement -/

namespace Blueprint

variable {b : Blueprint σ ε}

/-- A step that fails does so for an unknown condition, because it is stuck or because several
transitions are open.  It leaves the machine as it was, and of the handler it has asked for
conditions only, in order and for each transition once at most.  Had hooks and actions been
others, and had the handler done something else with them and at the end of a run, the step
would have failed with the same fault and left the same memory. -/
theorem Reachable.of_step_eq_error (hb : b.Reachable) {s s' : Session σ ε}
    (hm : b.Yields s.machine) {h : Handler σ ε} {now : Instant} {event : Option ε} {fault : Fault}
    (hstep : s.step h now event = (.error fault, s')) :
    s'.machine = s.machine ∧
    (∃ asked, asked <+: s.machine.possible.filterMap Transition.condition ∧
      s'.memory = h.tell event s.memory (asked.map fun k => (k, k.value h event s.memory)) ∧
      s.AskedUpTo h event fault asked) ∧
    ∀ (h' : Handler σ ε) (now' : Instant) (u : Session σ ε),
      h'.condition = h.condition → h'.asked = h.asked → s.SameGuards u →
      u.step h' now' event = (.error fault, { u with memory := s'.memory }) := by
  have hstepped := Session.stepped_of_step hstep
  have hfault : ∀ name, fault ≠ .unknownState name := by
    rintro name rfl
    have hc := hb.wellFormed
    rw [← hm.chart_eq] at hc
    exact (hstepped.ne_unknownState hc name).1 rfl
  obtain ⟨rfl, asked, htold, hasked⟩ := hstepped.exists_asked hfault
  refine ⟨rfl, ⟨asked, ?_, congrArg Session.memory htold, hasked⟩, ?_⟩
  · unfold Session.AskedUpTo at hasked
    split at hasked
    · exact hasked.2 ▸ List.prefix_refl _
    · exact hasked.2 ▸ List.prefix_refl _
    · obtain ⟨before, after, hconditions, rfl, -⟩ := hasked
      rw [hconditions]
      exact ⟨after, by rw [List.append_assoc]; rfl⟩
    · exact hasked.elim
  · intro h' now' u hcondition hsame hu
    exact Session.step_of_stepped (hstepped.of_sameGuards hfault hcondition hsame hu now')

/-- The crossroads with machines that start in the square. -/
def crossroads : Blueprint (List String) String :=
  { chart := .crossroads ["mill", "ford"], factory := Chart.start }

theorem crossroads_reachable : crossroads.Reachable :=
  ⟨[.declareState "square" { initial := true }, .declareState "mill" {},
    .declareState "ford" { final := true }, .declareTransition (.path "mill"),
    .declareTransition (.path "ford")], rfl⟩

theorem crossroads_yields_lost : crossroads.Yields (Session.lost ["mill", "ford"]).machine :=
  .start rfl

end Blueprint

/-- A walker who has never heard of the ford. -/
def Handler.newcomer : Handler (List String) String :=
  { walker with condition := fun name event notes =>
      if name = "ford" then none else walker.condition name event notes }

namespace Blueprint

/-- Without a direction a walker hears of both paths and takes none.  A newcomer hears of the
path to the ford last, after one that is open. -/
theorem crossroads_of_step_eq_error :
    crossroads.Reachable ∧ crossroads.Yields (Session.lost ["mill", "ford"]).machine ∧
    (∃ s', (Session.lost ["mill", "ford"]).step .walker .noon none =
        (.error (.ambiguous "square" ["mill", "ford"]), s') ∧
      s'.machine = (Session.lost ["mill", "ford"]).machine ∧ s'.memory = ["ford", "mill"]) ∧
    ∃ s', (Session.lost ["mill", "ford"]).step .newcomer .noon (some "mill") =
        (.error (.unknownCallable .condition "ford"), s') ∧
      s'.machine = (Session.lost ["mill", "ford"]).machine ∧
      ∃ asked, asked <+: [.named "mill", .named "ford"] ∧
        Session.AskedUpTo .newcomer (some "mill") (Session.lost ["mill", "ford"])
          (.unknownCallable .condition "ford") asked := by
  have hlost := crossroads_yields_lost
  have hwalker : ∃ s', (Session.lost ["mill", "ford"]).step .walker .noon none =
      (.error (.ambiguous "square" ["mill", "ford"]), s') := ⟨_, rfl⟩
  have hnewcomer : ∃ s', (Session.lost ["mill", "ford"]).step .newcomer .noon (some "mill") =
      (.error (.unknownCallable .condition "ford"), s') := ⟨_, rfl⟩
  obtain ⟨s', hwalker⟩ := hwalker
  obtain ⟨u', hnewcomer⟩ := hnewcomer
  obtain ⟨hmachine, ⟨asked, -, hmemory, hall⟩, -⟩ :=
    crossroads_reachable.of_step_eq_error hlost hwalker
  obtain ⟨hmachine', ⟨asked', hasked', -, hupTo⟩, -⟩ :=
    crossroads_reachable.of_step_eq_error hlost hnewcomer
  refine ⟨crossroads_reachable, hlost, ⟨s', hwalker, hmachine, ?_⟩,
    u', hnewcomer, hmachine', asked', hasked', hupTo⟩
  rw [hmemory, hall.2]
  rfl

end Blueprint
end Turnstile
