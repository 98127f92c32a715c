import Turnstile.Proofs.Machine.Request

/-!
# Labels and onlookers

Descriptions of transitions and the tags of predicates are there to be read by people, and a
hook may be there to look on.  None of them has a part in what a machine does: charts that
differ in nothing else lead a caller through the same results, memories, states and passages
(`Session.serveAll_of_relabelled`).

Two things have to be said of the handler for that.  The hooks that only one of the charts has
must be onlookers: they are known, and they leave the memory as it is.  And nothing that is told
of a transition or of a condition may go by its label (`Handler.Overlooks`).
-/

namespace Turnstile

variable {σ ε : Type}

/-! ## Charts that differ in labels and onlookers -/

/-- The conditions differ at most in the tag of a predicate. -/
inductive Condition.Retagged : Condition σ ε → Condition σ ε → Prop
  | named (name : String) : Retagged (.named name) (.named name)
  | predicate (tag tag' : String) (holds : σ → Option ε → Bool) :
      Retagged (.predicate tag holds) (.predicate tag' holds)

/-- The transitions differ at most in their descriptions and in the tags of their conditions. -/
structure Transition.Relabelled (t t' : Transition σ ε) : Prop where
  source : t.source = t'.source
  target : t.target = t'.target
  condition : Option.Rel Condition.Retagged t.condition t'.condition
  negate : t.negate = t'.negate
  action : t.action = t'.action

/-- The second row of hooks is the first one with extra hooks put in anywhere. -/
inductive Hook.Interspersed (extra : Hook σ ε → Prop) :
    List (Hook σ ε) → List (Hook σ ε) → Prop
  | nil : Interspersed extra [] []
  | keep (k : Hook σ ε) {hooks hooks' : List (Hook σ ε)} (hrest : Interspersed extra hooks hooks') :
      Interspersed extra (k :: hooks) (k :: hooks')
  | extra {k : Hook σ ε} (hk : extra k) {hooks hooks' : List (Hook σ ε)}
      (hrest : Interspersed extra hooks hooks') : Interspersed extra hooks (k :: hooks')

/-- The charts differ at most in the labels of transitions and in extra hooks of the second. -/
structure Chart.Relabelled (extra : Hook σ ε → Prop) (c c' : Chart σ ε) : Prop where
  state?_eq : ∀ name, c.state? name = c'.state? name
  leaving : ∀ source, List.Forall₂ Transition.Relabelled (c.leaving source) (c'.leaving source)
  hooks : Hook.Interspersed extra c.hooks c'.hooks

/-- Under the handler the extra hooks of the second chart are onlookers, the hooks of the first
do the same whichever label a transition has, and so does the account of conditions. -/
structure Handler.Overlooks (h : Handler σ ε) (extra : Hook σ ε → Prop) (c c' : Chart σ ε) :
    Prop where
  onlooker : ∀ k, extra k → ∀ t' ∈ c'.transitions, ∀ phase event x,
    k.fire h phase t' event x = (true, x)
  fire : ∀ k ∈ c.hooks, ∀ t ∈ c.transitions, ∀ t' ∈ c'.transitions, t.Relabelled t' →
    ∀ phase event x, k.fire h phase t event x = k.fire h phase t' event x
  asked : ∀ k k' : Condition σ ε, k.Retagged k' → ∀ event answer x,
    h.asked k event answer x = h.asked k' event answer x

/-! ## Surveys -/

namespace Transition.Relabelled

variable {h : Handler σ ε} {event : Option ε} {x : σ} {t t' : Transition σ ε}

theorem condition_cases (ht : t.Relabelled t') :
    t.condition = none ∧ t'.condition = none ∨
      ∃ k k', t.condition = some k ∧ t'.condition = some k' ∧ k.Retagged k' := by
  have hcondition := ht.condition
  generalize t.condition = k at hcondition ⊢
  generalize t'.condition = k' at hcondition ⊢
  cases hcondition with
  | none => exact .inl ⟨rfl, rfl⟩
  | some hk => exact .inr ⟨_, _, rfl, rfl, hk⟩

theorem unknown?_eq (ht : t.Relabelled t') :
    t.unknown? h event x = t'.unknown? h event x := by
  rcases ht.condition_cases with ⟨hnone, hnone'⟩ | ⟨k, k', hsome, hsome', hk⟩
  · rw [unknown?, unknown?, hnone, hnone']
  · rw [unknown?, unknown?, hsome, hsome']
    cases hk <;> rfl

theorem isOpen_eq (ht : t.Relabelled t') : t.isOpen h event x = t'.isOpen h event x := by
  rcases ht.condition_cases with ⟨hnone, hnone'⟩ | ⟨k, k', hsome, hsome', hk⟩
  · rw [isOpen, isOpen, hnone, hnone']
  · rw [isOpen, isOpen, hsome, hsome', ht.negate]
    cases hk <;> rfl

variable {ts ts' : List (Transition σ ε)}

theorem findSome?_unknown?_eq (hts : List.Forall₂ Relabelled ts ts') :
    ts.findSome? (unknown? h event x) = ts'.findSome? (unknown? h event x) := by
  induction hts with
  | nil => rfl
  | cons ht _ ih => rw [List.findSome?_cons, List.findSome?_cons, ht.unknown?_eq, ih]

theorem filter_isOpen (hts : List.Forall₂ Relabelled ts ts') :
    List.Forall₂ Relabelled (ts.filter (isOpen h event x)) (ts'.filter (isOpen h event x)) :=
  List.rel_filter (fun _ _ ht => iff_of_eq (congrArg (· = true) ht.isOpen_eq)) hts

theorem map_target_eq (hts : List.Forall₂ Relabelled ts ts') :
    ts.map Transition.target = ts'.map Transition.target := by
  induction hts with
  | nil => rfl
  | cons ht _ ih => rw [List.map_cons, List.map_cons, ht.target, ih]

end Transition.Relabelled

namespace Handler.Overlooks

variable {h : Handler σ ε} {extra : Hook σ ε → Prop} {c c' : Chart σ ε} {event : Option ε}

/-- The account of a survey is the same, whatever memory it is added to. -/
theorem tell_answers_eq (hh : h.Overlooks extra c c') (event : Option ε)
    {ts ts' : List (Transition σ ε)} (hts : List.Forall₂ Transition.Relabelled ts ts') (x y : σ) :
    h.tell event y (h.answers event x ts) = h.tell event y (h.answers event x ts') := by
  induction hts generalizing y with
  | nil => rfl
  | @cons t t' ts ts' ht _ ih =>
    rw [answers, answers]
    rcases ht.condition_cases with ⟨hnone, hnone'⟩ | ⟨k, k', hsome, hsome', hk⟩
    · rw [hnone, hnone']
      exact ih y
    · have hvalue : k.value h event x = k'.value h event x := by cases hk <;> rfl
      simp only [hsome, hsome', hvalue]
      cases k'.value h event x with
      | none => exact hh.asked k k' hk event none y
      | some b =>
        show h.tell event (h.asked k event (some b) y) _ = h.tell event (h.asked k' event _ y) _
        rw [hh.asked k k' hk]
        exact ih _

/-! ## Calls -/

variable {t t' : Transition σ ε}

/-- Onlookers among the hooks make no difference to a row of hooks. -/
theorem makeAll_hooks_eq {hooks hooks' : List (Hook σ ε)}
    (hhooks : Hook.Interspersed extra hooks hooks') {phase : Phase}
    (honlooker : ∀ k, extra k → ∀ x, k.fire h phase t' event x = (true, x))
    (hfire : ∀ k ∈ hooks, ∀ x, k.fire h phase t event x = k.fire h phase t' event x) (x : σ) :
    Call.makeAll h t event (hooks.map (.hook phase)) x =
      Call.makeAll h t' event (hooks'.map (.hook phase)) x := by
  induction hhooks generalizing x with
  | nil => rfl
  | keep k hrest ih =>
    obtain ⟨hk, hothers⟩ := List.forall_mem_cons.mp hfire
    have hmake : (Call.hook phase k).make h t event x = (Call.hook phase k).make h t' event x := by
      rw [Call.make, Call.make, hk]
    simp only [List.map_cons, Call.makeAll, hmake, ih hothers]
  | @extra k hk hooks hooks' hrest ih =>
    have hmake : (Call.hook phase k).make h t' event x = (none, x) := by
      rw [Call.make, honlooker k hk]
    simp only [List.map_cons, Call.makeAll, hmake, ih hfire, Option.none_or]

theorem makeAll_action_eq (ht : t.Relabelled t') (x : σ) :
    Call.makeAll h t event (t.action.toList.map .action) x =
      Call.makeAll h t' event (t'.action.toList.map .action) x := by
  rw [← ht.action]
  cases t.action with
  | none => rfl
  | some a =>
    have hmake : (Call.action a).make h t event x = (Call.action a).make h t' event x := by
      rw [Call.make, Call.make, ht.source, ht.target]
    simp only [Option.toList_some, List.map_cons, List.map_nil, Call.makeAll, hmake]

theorem makeAll_calls_eq (hh : h.Overlooks extra c c')
    (hhooks : Hook.Interspersed extra c.hooks c'.hooks) (hmem : t ∈ c.transitions)
    (hmem' : t' ∈ c'.transitions) (ht : t.Relabelled t') (x : σ) :
    Call.makeAll h t event (t.calls c.hooks) x = Call.makeAll h t' event (t'.calls c'.hooks) x := by
  have hrow : ∀ phase y, Call.makeAll h t event (c.hooks.map (.hook phase)) y =
      Call.makeAll h t' event (c'.hooks.map (.hook phase)) y := fun phase =>
    makeAll_hooks_eq hhooks (fun k hk => hh.onlooker k hk t' hmem' phase event)
      fun k hk => hh.fire k hk t hmem t' hmem' ht phase event
  simp only [Transition.calls, Call.makeAll_append, hrow, makeAll_action_eq ht]

end Handler.Overlooks

/-! ## Sessions on relabelled charts -/

/-- A caller who overlooks nothing. -/
def Leeway.exact : Leeway σ :=
  { fault := Eq, memory := Eq, time := Eq, fault_refl := fun _ => rfl }

namespace Session

/-- The sessions have come from two others and stand in the same state with the same memory.  If
the machines had made the same transition last but for its label, or had the same history, they
still have. -/
structure Beside (s₀ u₀ s u : Session σ ε) : Prop where
  chart_left : s.machine.chart = s₀.machine.chart
  chart_right : u.machine.chart = u₀.machine.chart
  state : s.machine.state = u.machine.state
  memory : s.memory = u.memory
  latest : Option.Rel Transition.Relabelled s₀.machine.latest u₀.machine.latest →
    Option.Rel Transition.Relabelled s.machine.latest u.machine.latest
  history : s₀.machine.history = u₀.machine.history → s.machine.history = u.machine.history

namespace Beside

variable {extra : Hook σ ε → Prop} {s₀ u₀ s u : Session σ ε} {h : Handler σ ε}

theorem possible (hs : Beside s₀ u₀ s u)
    (hc : s₀.machine.chart.Relabelled extra u₀.machine.chart) :
    List.Forall₂ Transition.Relabelled s.machine.possible u.machine.possible := by
  rw [Machine.possible, Machine.possible, hs.chart_left, hs.chart_right, hs.state]
  exact hc.leaving _

theorem unknown?_eq (hs : Beside s₀ u₀ s u)
    (hc : s₀.machine.chart.Relabelled extra u₀.machine.chart) (h : Handler σ ε)
    (event : Option ε) : s.unknown? h event = u.unknown? h event := by
  rw [Session.unknown?, Session.unknown?, hs.memory]
  exact Transition.Relabelled.findSome?_unknown?_eq (hs.possible hc)

theorem opened (hs : Beside s₀ u₀ s u)
    (hc : s₀.machine.chart.Relabelled extra u₀.machine.chart) (h : Handler σ ε)
    (event : Option ε) :
    List.Forall₂ Transition.Relabelled (s.opened h event) (u.opened h event) := by
  rw [Session.opened, Session.opened, hs.memory]
  exact Transition.Relabelled.filter_isOpen (hs.possible hc)

theorem mem_transitions (hs : Beside s₀ u₀ s u) {event : Option ε} :
    (∀ t ∈ s.opened h event, t ∈ s₀.machine.chart.transitions) ∧
      ∀ t ∈ u.opened h event, t ∈ u₀.machine.chart.transitions := by
  rw [← hs.chart_left, ← hs.chart_right]
  exact ⟨fun t ht => Table.mem_all_of_mem_leaving (List.mem_filter.mp ht).1,
    fun t ht => Table.mem_all_of_mem_leaving (List.mem_filter.mp ht).1⟩

theorem told (hs : Beside s₀ u₀ s u)
    (hc : s₀.machine.chart.Relabelled extra u₀.machine.chart)
    (hh : h.Overlooks extra s₀.machine.chart u₀.machine.chart) (event : Option ε) :
    Beside s₀ u₀ (s.told h event) (u.told h event) := by
  have hmemory := hh.tell_answers_eq event (hs.possible hc) s.memory s.memory
  refine { hs with memory := hmemory.trans ?_ }
  rw [hs.memory]
  rfl

theorem perform (hs : Beside s₀ u₀ s u)
    (hc : s₀.machine.chart.Relabelled extra u₀.machine.chart)
    (hh : h.Overlooks extra s₀.machine.chart u₀.machine.chart) {t t' : Transition σ ε}
    (hmem : t ∈ s₀.machine.chart.transitions) (hmem' : t' ∈ u₀.machine.chart.transitions)
    (ht : t.Relabelled t') (now : Instant) (event : Option ε) :
    (s.perform h now event t).1 = (u.perform h now event t').1 ∧
      Beside s₀ u₀ (s.perform h now event t).2 (u.perform h now event t').2 := by
  rw [Session.perform, Session.perform, hs.chart_left, hs.chart_right, ← hc.state?_eq,
    ← ht.source, ← ht.target, ← hh.makeAll_calls_eq hc.hooks hmem hmem' ht, hs.memory]
  cases s₀.machine.chart.state? t.target with
  | none => exact ⟨rfl, hs⟩
  | some target =>
    refine ⟨rfl, ?_⟩
    exact
      { chart_left := hs.chart_left
        chart_right := hs.chart_right
        state := rfl
        memory := rfl
        latest := fun _ => .some ht
        history := fun hhistory => by
          show s.machine.history.record _ = u.machine.history.record _
          rw [hs.history hhistory, ht.source, ht.target] }

theorem proceed (hs : Beside s₀ u₀ s u)
    (hc : s₀.machine.chart.Relabelled extra u₀.machine.chart)
    (hh : h.Overlooks extra s₀.machine.chart u₀.machine.chart) {ts ts' : List (Transition σ ε)}
    (hts : List.Forall₂ Transition.Relabelled ts ts')
    (hmem : ∀ t ∈ ts, t ∈ s₀.machine.chart.transitions)
    (hmem' : ∀ t ∈ ts', t ∈ u₀.machine.chart.transitions) (now : Instant) (event : Option ε) :
    (s.proceed h now event ts).1 = (u.proceed h now event ts').1 ∧
      Beside s₀ u₀ (s.proceed h now event ts).2 (u.proceed h now event ts').2 := by
  match ts, ts', hts with
  | [], [], _ =>
    rw [Session.proceed, Session.proceed, hs.state]
    split
    · exact ⟨rfl, hs⟩
    · exact ⟨rfl, { hs with memory := congrArg h.finished hs.memory }⟩
  | [t], [t'], .cons ht .nil =>
    exact hs.perform hc hh (hmem t (List.mem_singleton_self t))
      (hmem' t' (List.mem_singleton_self t')) ht now event
  | t :: v :: ts, t' :: v' :: ts', hts =>
    refine ⟨?_, hs⟩
    show Except.error (Fault.ambiguous s.machine.state.name _) =
      Except.error (Fault.ambiguous u.machine.state.name _)
    rw [hs.state, Transition.Relabelled.map_target_eq hts]

theorem step (hs : Beside s₀ u₀ s u)
    (hc : s₀.machine.chart.Relabelled extra u₀.machine.chart)
    (hh : h.Overlooks extra s₀.machine.chart u₀.machine.chart) (now : Instant)
    (event : Option ε) :
    (s.step h now event).1 = (u.step h now event).1 ∧
      Beside s₀ u₀ (s.step h now event).2 (u.step h now event).2 := by
  have hunknown := hs.unknown?_eq hc h event
  have htold := hs.told hc hh event
  cases hu : u.unknown? h event with
  | some name =>
    rw [hu] at hunknown
    rw [step_of_unknown hunknown, step_of_unknown hu]
    exact ⟨rfl, htold⟩
  | none =>
    rw [hu] at hunknown
    rw [step_of_known hunknown, step_of_known hu]
    exact htold.proceed hc hh (hs.opened hc h event) hs.mem_transitions.1 hs.mem_transitions.2
      now event

theorem lockstep (hc : s₀.machine.chart.Relabelled extra u₀.machine.chart) {q : Request σ ε}
    (hq : q.handler.Overlooks extra s₀.machine.chart u₀.machine.chart) :
    Lockstep Leeway.exact (Beside s₀ u₀) q where
  state := fun hs => hs.state
  memory := fun hs => hs.memory
  prepare := fun hs => { hs with memory := congrArg q.prepare hs.memory }
  step := by
    rintro s u hs now - rfl
    obtain ⟨hresult, hnext⟩ := hs.step hc hq now q.event
    rw [hresult]
    exact ⟨Leeway.Answers.refl _, hnext⟩

end Beside

end Session

/-! ## A toll road -/

/-- A road through a gate that opens for a coin.  The gate may bear any label, and any hooks may
be called on the way. -/
def Chart.tollRoad (tag : String) (description : Option String)
    (hooks : List (Hook (List String) String)) : Chart (List String) String :=
  { (Chart.empty : Chart (List String) String).declareStates
      [{ name := "field", flags := { initial := true } },
        { name := "road", flags := { transient := true } },
        { name := "town", flags := { final := true } }] with
    table :=
      [{ source := "field", target := "road",
          condition := some (.predicate tag fun _ event => event == some "coin"),
          action := some (.named "lift"), description },
        { source := "road", target := "town" }].foldl Table.add Ledger.empty
    hooks }

/-- Writes down what is done, and of hooks where they are called.  The bell is out of order before
a transition, and the gauge is only looked at. -/
def Handler.keeper : Handler (List String) String :=
  { action := fun name _ notes => (some (.ok ()), name :: notes)
    hook := fun name phase t _ notes =>
      if name = "gauge" then (true, notes)
      else (phase == .after, (phase.name ++ " " ++ t.text) :: notes)
    asked := fun _ _ _ notes => "asked" :: notes }

/-- Looks on from the side of the road. -/
def Hook.bystander : Hook (List String) String := .callback fun _ _ _ notes => notes

/-- Stands in the field before a toll road. -/
def Session.inField (c : Chart (List String) String) : Session (List String) String :=
  { machine :=
      { chart := c, state := { name := "field", flags := { initial := true } }, latest := none,
        history := .empty }
    memory := [] }

def Chart.plainRoad : Chart (List String) String := .tollRoad "paid" none [.named "bell"]

def Chart.signedRoad : Chart (List String) String :=
  .tollRoad "coin" (some "for all vehicles") [.named "gauge", .named "bell", .bystander]

def Hook.OnRoadside (k : Hook (List String) String) : Prop := k = .named "gauge" ∨ k = .bystander

theorem Chart.plainRoad_relabelled : plainRoad.Relabelled Hook.OnRoadside signedRoad where
  state?_eq := fun _ => rfl
  leaving := by
    intro source
    by_cases hfield : source = "field"
    · subst hfield
      exact .cons ⟨rfl, rfl, .some (.predicate _ _ _), rfl, rfl⟩ .nil
    by_cases hroad : source = "road"
    · subst hroad
      exact .cons ⟨rfl, rfl, .none, rfl, rfl⟩ .nil
    · simp [plainRoad, signedRoad, tollRoad, leaving, Table.leaving, Table.add, Table.alter,
        Ledger.get?_alter, hfield, hroad]
  hooks := .extra (.inl rfl) (.keep _ (.extra (.inr rfl) .nil))

theorem Handler.keeper_overlooks :
    keeper.Overlooks Hook.OnRoadside .plainRoad .signedRoad where
  onlooker := by
    rintro k (rfl | rfl) t' - phase event notes
    · rfl
    · rfl
  fire := by
    intro k hk t _ t' _ ht phase event notes
    obtain rfl : k = .named "bell" := List.mem_singleton.mp hk
    show (phase == .after, (phase.name ++ " " ++ t.text) :: notes) =
      (phase == .after, (phase.name ++ " " ++ t'.text) :: notes)
    rw [Transition.text, Transition.text, ht.source, ht.target]
  asked := fun _ _ _ _ _ _ => rfl

/-- Drives through the gate with a coin, and then on. -/
def Request.drives : List (Request (List String) String) :=
  [{ drive := .run, handler := .keeper, event := some "coin" },
    { drive := .step, handler := .keeper }]

namespace Session

/-! ## Main statement -/

/-- Labels and onlookers have no part in what machines do.  Take machines in the same state and
handlers with the same memory, on charts that differ at most in the descriptions of transitions,
in the tags of predicates and in extra hooks, which the handlers know and which leave the memory
as it is.  Whatever row of requests both serve, neither comes to an end, or they answer each
request with the same result, memory and state, and have the same history in the end if they had
it in the beginning. -/
theorem serveAll_of_relabelled {extra : Hook σ ε → Prop} {s u : Session σ ε}
    (hc : s.machine.chart.Relabelled extra u.machine.chart)
    (hstate : s.machine.state = u.machine.state) (hmemory : s.memory = u.memory)
    {requests : List (Request σ ε)}
    (hrequests : ∀ q ∈ requests,
      q.handler.Overlooks extra s.machine.chart u.machine.chart)
    (clock : Nat → Nat → Instant) (budget : Nat) :
    Matching Eq (Beside s u) (s.serveAll clock budget requests)
      (u.serveAll clock budget requests) := by
  have hstart : Beside s u s u := ⟨rfl, rfl, hstate, hmemory, id, id⟩
  refine (Lockstep.serveAll (fun q hq => Beside.lockstep hc (hrequests q hq)) hstart
    (fun _ _ => rfl) budget).imp ?_
  exact fun _ _ => Leeway.eq_of_forall₂_receipts (fun _ _ => id) fun _ _ => id

theorem serveAll_plainRoad :
    ((inField .plainRoad).serveAll (fun _ _ => .noon) 2 Request.drives).map
        (fun served => (served.1.map Receipt.reply, served.2.memory)) =
      some ([.run (.error (.unknownCallable .hook "bell")),
          .step (.ok (.moved "road" "town" (some (.unknownCallable .hook "bell"))))],
        ["after road -> town", "before road -> town", "after field -> road", "lift",
          "before field -> road", "asked"]) ∧
    Matching Eq (Beside (inField .plainRoad) (inField .signedRoad))
      ((inField .plainRoad).serveAll (fun _ _ => .noon) 2 Request.drives)
      ((inField .signedRoad).serveAll (fun _ _ => .noon) 2 Request.drives) := by
  have hdrives : ∀ q ∈ Request.drives,
      q.handler.Overlooks Hook.OnRoadside Chart.plainRoad Chart.signedRoad := by
    intro q hq
    obtain rfl | rfl := List.mem_pair.mp hq
    all_goals exact Handler.keeper_overlooks
  exact ⟨rfl, serveAll_of_relabelled (s := inField .plainRoad) (u := inField .signedRoad)
    Chart.plainRoad_relabelled rfl rfl hdrives (fun _ _ => .noon) 2⟩

end Session
end Turnstile
