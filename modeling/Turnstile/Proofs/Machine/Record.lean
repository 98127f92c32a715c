import Turnstile.Proofs.Machine.Request
import Turnstile.Proofs.Reachable

/-!
# Every call is made once

A handler that keeps a record of its calls adds to it what `Transition.effects` lists for
every transition that is made, whatever becomes of the calls, and one entry for every step
with which a run comes to its end.  `Stride` is a step as it was made, and
`Session.strideAll` are all steps of a row of requests in order, those in the middle of
runs among them.

`Accounted` says that a row of strides accounts for the way from one session to another:
for the record, for the machine and for its history.  It holds of one step and is kept
when rows are put together, and so it holds of runs and of rows of requests.
-/

namespace Turnstile

variable {σ ε α : Type}

/-! ## Records -/

/-- What a handler is called for, conditions aside. -/
inductive Effect (σ ε : Type) where
  | hook (phase : Phase) (hook : Hook σ ε) (t : Transition σ ε) (event : Option ε)
  | action (action : Action σ ε) (event : Option ε)
  | finished

/-- What making a transition is to call for: every hook in order, then the action if there
is one, and then every hook in order again. -/
def Transition.effects (t : Transition σ ε) (hooks : List (Hook σ ε)) (event : Option ε) :
    List (Effect σ ε) :=
  hooks.map (fun k => .hook .before k t event) ++
    t.action.toList.map (fun a => .action a event) ++
    hooks.map (fun k => .hook .after k t event)

/-- The handler keeps a record of its calls in its memory, in which `mark` stands for each
of them, and so do the hooks and actions of the chart that do not call on the handler.
What they answer is left open. -/
structure Handler.Records (h : Handler σ ε) (c : Chart σ ε) (record : σ → List α)
    (mark : Effect σ ε → α) : Prop where
  hook : ∀ k ∈ c.hooks, ∀ t ∈ c.transitions, ∀ phase event x,
    record (k.fire h phase t event x).2 = record x ++ [mark (.hook phase k t event)]
  action : ∀ t ∈ c.transitions, ∀ a ∈ t.action, ∀ event x,
    record (a.invoke h event x).2 = record x ++ [mark (.action a event)]
  finished : ∀ x, record (h.finished x) = record x ++ [mark .finished]
  asked : ∀ condition event answer x, record (h.asked condition event answer x) = record x

/-- The handler of a request keeps a record, and the caller leaves it as it is. -/
structure Request.Records (q : Request σ ε) (c : Chart σ ε) (record : σ → List α)
    (mark : Effect σ ε → α) : Prop where
  handler : q.handler.Records c record mark
  prepare : ∀ x, record (q.prepare x) = record x

/-- What the call is an instance of. -/
def Call.effect (t : Transition σ ε) (event : Option ε) : Call σ ε → Effect σ ε
  | .hook phase k => .hook phase k t event
  | .action a => .action a event

theorem Transition.map_effect_calls (t : Transition σ ε) (hooks : List (Hook σ ε))
    (event : Option ε) : (t.calls hooks).map (Call.effect t event) = t.effects hooks event := by
  simp only [calls, effects, List.map_append, List.map_map]
  rfl

namespace Handler.Records

variable {h : Handler σ ε} {c : Chart σ ε} {record : σ → List α} {mark : Effect σ ε → α}
  {t : Transition σ ε}

theorem make (hr : h.Records c record mark) (ht : t ∈ c.transitions) {call : Call σ ε}
    (hcall : call ∈ t.calls c.hooks) (event : Option ε) (x : σ) :
    record (call.make h t event x).2 = record x ++ [mark (call.effect t event)] := by
  rcases Call.mem_calls_iff.mp hcall with ⟨phase, k, hk, rfl⟩ | ⟨a, ha, rfl⟩
  · rw [Call.effect, ← hr.hook k hk t ht phase event x, Call.make]
    split <;> simp [*]
  · rw [Call.effect, ← hr.action t ht a ha event x, Call.make]
    split <;> simp [*]

/-- A call that goes wrong keeps none of the others from being made. -/
theorem makeAll (hr : h.Records c record mark) (ht : t ∈ c.transitions)
    {calls : List (Call σ ε)} (hcalls : calls ⊆ t.calls c.hooks) (event : Option ε) (x : σ) :
    record (Call.makeAll h t event calls x).2 =
      record x ++ (calls.map (Call.effect t event)).map mark := by
  induction calls generalizing x with
  | nil => exact (List.append_nil _).symm
  | cons call calls ih =>
    obtain ⟨hcall, hrest⟩ := List.cons_subset.mp hcalls
    show record (Call.makeAll h t event calls (call.make h t event x).2).2 = _
    rw [ih hrest, hr.make ht hcall, List.append_assoc]
    rfl

theorem tell (hr : h.Records c record mark) (event : Option ε)
    (answers : List (Condition σ ε × Option Bool)) (x : σ) :
    record (h.tell event x answers) = record x := by
  induction answers generalizing x with
  | nil => rfl
  | cons answer answers ih => exact (ih _).trans (hr.asked ..)

end Handler.Records

/-! ## Strides -/

/-- A step that has been made: on which event, what it came to, and the machine that it
left. -/
structure Stride (σ ε : Type) where
  event : Option ε
  result : Except Fault StepResult
  machine : Machine σ ε

/-- What the step has called for under the given hooks.  A step that fails calls for
nothing. -/
def Stride.effects (hooks : List (Hook σ ε)) (p : Stride σ ε) : List (Effect σ ε) :=
  match p.result with
  | .ok (.moved _ _ _) => p.machine.latest.toList.flatMap fun t => t.effects hooks p.event
  | .ok (.finished _) => [.finished]
  | .error _ => []

theorem Stride.effects_commit (hooks : List (Hook σ ε)) (event : Option ε)
    (source name : String) (fault : Option Fault) (m : Machine σ ε) (t : Transition σ ε)
    (target : State) (now : Instant) :
    Stride.effects hooks
        { event, result := .ok (.moved source name fault), machine := m.commit t target now } =
      t.effects hooks event :=
  List.flatMap_singleton _ t

namespace Session

def stride (h : Handler σ ε) (now : Instant) (event : Option ε) (s : Session σ ε) :
    Stride σ ε :=
  { event, result := (s.step h now event).1, machine := (s.step h now event).2.machine }

/-- The steps of a run that has made `taken` steps before. -/
def stridesFrom (h : Handler σ ε) (clock : Nat → Instant) (event : Option ε) (taken : Nat) :
    (budget : Nat) → Session σ ε → List (Stride σ ε)
  | 0, _ => []
  | budget + 1, s =>
    let first := s.stride h (clock taken) event
    first ::
      match ending (taken + 1) first.machine.state first.result with
      | some _ => []
      | none => stridesFrom h clock event (taken + 1) budget (s.step h (clock taken) event).2

/-- The steps that are made to serve a request. -/
def strides (clock : Nat → Instant) (budget : Nat) (q : Request σ ε) (s : Session σ ε) :
    List (Stride σ ε) :=
  let ready := { s with memory := q.prepare s.memory }
  match q.drive with
  | .step => [ready.stride q.handler (clock 0) q.event]
  | .run => ready.stridesFrom q.handler clock q.event 0 budget

/-- The steps that are made to serve requests one after the other. -/
def strideAll (clock : Nat → Nat → Instant) (budget : Nat) :
    List (Request σ ε) → Session σ ε → List (Stride σ ε)
  | [], _ => []
  | q :: qs, s =>
    s.strides (clock 0) budget q ++
      match s.serve (clock 0) budget q with
      | none => []
      | some (_, s') => strideAll (fun n => clock (n + 1)) budget qs s'

/-- The strides account for the way from one session to the other.  The record has grown by
what they call for, in order, and by nothing else.  Every stride that has made a transition,
with a fault or without, has left the machine behind a transition of the chart that has the
ends it reports.  Without a bound the history has grown by the same transitions. -/
structure Accounted (record : σ → List α) (mark : Effect σ ε → α) (s : Session σ ε)
    (strides : List (Stride σ ε)) (s' : Session σ ε) : Prop where
  chart : s'.machine.chart = s.machine.chart
  record : record s'.memory = record s.memory ++
    (strides.flatMap (Stride.effects s.machine.chart.hooks)).map mark
  committed : ∀ p ∈ strides, ∀ source target deferred,
    p.result = .ok (.moved source target deferred) →
      ∃ t ∈ s.machine.chart.transitions, p.machine.latest = some t ∧ t.source = source ∧
        t.target = target ∧ p.machine.state.name = target
  passages : s.machine.history.limit = none →
    s'.machine.history.limit = none ∧
      s'.machine.history.ends = s.machine.history.ends ++ strides.filterMap (passed ·.result)

namespace Accounted

variable {record : σ → List α} {mark : Effect σ ε → α} {s s' : Session σ ε}

theorem nil {s s' : Session σ ε} (hmachine : s'.machine = s.machine)
    (hrecord : record s'.memory = record s.memory) : Accounted record mark s [] s' where
  chart := congrArg Machine.chart hmachine
  record := hrecord.trans (List.append_nil _).symm
  committed := by simp
  passages := by
    intro hl
    rw [hmachine]
    exact ⟨hl, (List.append_nil _).symm⟩

theorem append {s₁ : Session σ ε} {ps qs : List (Stride σ ε)}
    (hp : Accounted record mark s ps s₁) (hq : Accounted record mark s₁ qs s') :
    Accounted record mark s (ps ++ qs) s' where
  chart := hq.chart.trans hp.chart
  record := by
    rw [hq.record, hp.record, hp.chart, List.flatMap_append, List.map_append, List.append_assoc]
  committed := by
    intro p hmem
    rcases List.mem_append.mp hmem with hmem | hmem
    · exact hp.committed p hmem
    · rw [← hp.chart]
      exact hq.committed p hmem
  passages := by
    intro hl
    obtain ⟨hl₁, hends⟩ := hp.passages hl
    obtain ⟨hl', hrest⟩ := hq.passages hl₁
    refine ⟨hl', ?_⟩
    rw [hrest, hends, List.filterMap_append, List.append_assoc]

/-- A step accounts for itself if it does so for the record and for the transition that it
has made, if it has made one. -/
theorem single {h : Handler σ ε} {now : Instant} {event : Option ε}
    {result : Except Fault StepResult} (hstep : s.step h now event = (result, s'))
    (hrecord : record s'.memory = record s.memory ++
      (Stride.effects s.machine.chart.hooks { event, result, machine := s'.machine }).map mark)
    (hcommitted : ∀ source target deferred, result = .ok (.moved source target deferred) →
      ∃ t ∈ s.machine.chart.transitions, s'.machine.latest = some t ∧ t.source = source ∧
        t.target = target ∧ s'.machine.state.name = target) :
    Accounted record mark s [{ event, result, machine := s'.machine }] s' where
  chart := (stepped_of_step hstep).chart_eq
  record := by rw [List.flatMap_singleton, hrecord]
  committed := by
    intro p hp
    obtain rfl := List.mem_singleton.mp hp
    exact hcommitted
  passages := by
    intro hl
    obtain ⟨hl', added, hadded, hends⟩ := exists_added_of_step hstep hl
    refine ⟨hl', ?_⟩
    rw [History.ends, hadded, List.map_append, hends, List.filterMap_cons]
    cases passed result <;> rfl

theorem step {h : Handler σ ε} (hr : h.Records s.machine.chart record mark) (now : Instant)
    (event : Option ε) :
    Accounted record mark s [s.stride h now event] (s.step h now event).2 := by
  have htold : record (s.told h event).memory = record s.memory := hr.tell ..
  rcases hstep : s.step h now event with ⟨result, s'⟩
  rw [stride, hstep]
  cases stepped_of_step hstep with
  | unknown | stuck | ambiguous | lost =>
    exact single hstep (htold.trans (List.append_nil _).symm) (by simp)
  | finished =>
    refine single hstep ?_ (by simp)
    rw [hr.finished, htold]
    rfl
  | @moved t target fault memory hknown hopen htarget hcalls =>
    have ht := Table.mem_all_of_mem_leaving (mem_possible_of_opened hopen)
    have hmemory := hr.makeAll ht (List.Subset.refl _) event (s.told h event).memory
    rw [hcalls, htold, Transition.map_effect_calls] at hmemory
    refine single hstep ?_ fun source name deferred hresult => ?_
    · rw [hmemory, Stride.effects_commit]
    · obtain ⟨rfl, rfl, -⟩ := StepResult.moved.inj (Except.ok.inj hresult)
      exact ⟨t, ht, rfl, rfl, rfl, Chart.name_of_state? htarget⟩

theorem runFrom {h : Handler σ ε} (hr : h.Records s.machine.chart record mark)
    {clock : Nat → Instant} {event : Option ε} {taken budget : Nat}
    {r : Except Fault Outcome}
    (hrun : Session.runFrom h clock event taken budget s = some (r, s')) :
    Accounted record mark s (s.stridesFrom h clock event taken budget) s' := by
  induction budget generalizing taken s with
  | zero => simp [Session.runFrom] at hrun
  | succ budget ih =>
    have hfirst := Accounted.step hr (clock taken) event
    have hgo : (s.stride h (clock taken) event).result = (s.step h (clock taken) event).1 := rfl
    have hstate : (s.stride h (clock taken) event).machine =
      (s.step h (clock taken) event).2.machine := rfl
    rw [runFrom_succ] at hrun
    simp only [stridesFrom, hgo, hstate]
    -- the step ends the run, or what is left of the run accounts for the rest
    cases hend : ending (taken + 1) (s.step h (clock taken) event).2.machine.state
        (s.step h (clock taken) event).1 with
    | some r₁ =>
      rw [hend] at hrun
      obtain ⟨-, rfl⟩ := Prod.mk.inj (Option.some.inj hrun)
      exact hfirst
    | none =>
      rw [hend] at hrun
      rw [← hfirst.chart] at hr
      exact hfirst.append (ih hr hrun)

theorem serve {clock : Nat → Instant} {budget : Nat} {q : Request σ ε} {reply : Reply}
    (hq : q.Records s.machine.chart record mark)
    (hserved : s.serve clock budget q = some (reply, s')) :
    Accounted record mark s (s.strides clock budget q) s' := by
  have hready : Accounted record mark s [] { s with memory := q.prepare s.memory } :=
    .nil rfl (hq.prepare s.memory)
  unfold Session.serve at hserved
  unfold Session.strides
  cases hdrive : q.drive with
  | step =>
    rw [hdrive] at hserved
    obtain ⟨-, rfl⟩ := Prod.mk.inj (Option.some.inj hserved)
    have hstep := Accounted.step (s := { s with memory := q.prepare s.memory }) hq.handler
      (clock 0) q.event
    exact hready.append hstep
  | run =>
    rw [hdrive] at hserved
    obtain ⟨⟨r, s₁⟩, hrun, heq⟩ := Option.map_eq_some_iff.mp hserved
    obtain ⟨-, rfl⟩ := Prod.mk.inj heq
    have hrow := Accounted.runFrom (s := { s with memory := q.prepare s.memory }) hq.handler hrun
    exact hready.append hrow

end Accounted

end Session

/-! ## A porch -/

/-- A way from outside over a porch into a house.  A bell rings around every transition,
and whoever goes in knocks. -/
def Chart.porch : Chart (List String) String :=
  { (Chart.empty : Chart (List String) String).declareStates
      [{ name := "outside", flags := { initial := true } },
        { name := "porch", flags := { transient := true } },
        { name := "inside", flags := { final := true } }] with
    table :=
      [{ source := "outside", target := "porch",
          action := some (.infallible fun _ calls => calls ++ [namelessLabel]) },
        { source := "porch", target := "inside", action := some (.named "knock") }].foldl
          Table.add Ledger.empty
    hooks := [.named "bell"] }

/-- Stands outside and has not been anywhere. -/
def Machine.newcomer : Machine (List String) String :=
  { chart := Chart.porch, state := { name := "outside", flags := { initial := true } },
    latest := none, history := History.empty }

/-- What stands for a call in a list of calls. -/
def Effect.entry : Effect (List String) String → String
  | .hook phase k t _ => phase.name ++ " " ++ t.target ++ ": " ++ k.label
  | .action a _ => a.label
  | .finished => "finished"

/-- Lists all calls.  Nobody answers a knock, and the bell is out of order when it is rung
before the way in. -/
def Handler.steward : Handler (List String) String :=
  { action := fun name _ calls => (some (.error { message := "nobody in" }), calls ++ [name])
    hook := fun name phase t _ calls =>
      (phase == .after || t.target == "porch",
        calls ++ [phase.name ++ " " ++ t.target ++ ": " ++ name])
    finished := fun calls => calls ++ ["finished"] }

theorem Handler.steward_records : Handler.steward.Records Chart.porch id Effect.entry where
  hook := by
    intro k hk t _ phase event x
    obtain rfl : k = .named "bell" := List.mem_singleton.mp hk
    rfl
  action := by
    intro t ht a ha event x
    have hcases : t.action = some (.infallible fun _ calls => calls ++ [namelessLabel]) ∨
        t.action = some (.named "knock") := by
      rcases List.mem_cons.mp (show t ∈ [_, _] from ht) with rfl | ht
      · exact .inl rfl
      · obtain rfl := List.mem_singleton.mp ht
        exact .inr rfl
    rcases hcases with hknown | hknown
    · obtain rfl := Option.some.inj (hknown.symm.trans ha)
      rfl
    · obtain rfl := Option.some.inj (hknown.symm.trans ha)
      rfl
  finished := fun _ => rfl
  asked := fun _ _ _ _ => rfl

/-- Goes in, and then on from there. -/
def Request.visit : List (Request (List String) String) :=
  [{ drive := .run, handler := .steward }, { drive := .step, handler := .steward }]

theorem Request.visit_records : ∀ q ∈ visit, q.Records Chart.porch id Effect.entry := by
  have hone : ∀ drive, Records { drive, handler := .steward } Chart.porch id Effect.entry :=
    fun _ => ⟨Handler.steward_records, fun _ => rfl⟩
  intro q hq
  rcases List.mem_cons.mp hq with rfl | hq
  · exact hone .run
  · obtain rfl := List.mem_singleton.mp hq
    exact hone .step

namespace Session

/-! ## Main statement -/

/-- When a row of requests has been served to a machine whose handlers keep a record, the
record has grown by what the transitions that were made call for, one after the other, and
by one entry for every step that came to the end of a run.  Faults of the calls make no
difference to that. -/
theorem accounted_of_serveAll {record : σ → List α} {mark : Effect σ ε → α}
    {clock : Nat → Nat → Instant} {budget : Nat} {qs : List (Request σ ε)} {s s' : Session σ ε}
    {receipts : List (Receipt σ)} (hqs : ∀ q ∈ qs, q.Records s.machine.chart record mark)
    (hserved : s.serveAll clock budget qs = some (receipts, s')) :
    Accounted record mark s (s.strideAll clock budget qs) s' := by
  induction qs generalizing clock s receipts with
  | nil =>
    obtain ⟨-, rfl⟩ := Prod.mk.inj (Option.some.inj hserved)
    exact .nil rfl rfl
  | cons q qs ih =>
    obtain ⟨⟨reply, s₁⟩, hfirst, hserved⟩ := Option.bind_eq_some_iff.mp hserved
    obtain ⟨⟨others, s₂⟩, hrest, heq⟩ := Option.map_eq_some_iff.mp hserved
    obtain ⟨-, rfl⟩ := Prod.mk.inj heq
    obtain ⟨hq, hqs⟩ := List.forall_mem_cons.mp hqs
    have hone := Accounted.serve hq hfirst
    rw [← hone.chart] at hqs
    rw [strideAll, hfirst]
    exact hone.append (ih hqs hrest)

theorem accounted_newcomer :
    (∀ q ∈ Request.visit, q.Records Chart.porch id Effect.entry) ∧
    ∃ receipts s',
      serveAll (fun _ _ => .noon) 2 Request.visit { machine := .newcomer, memory := [] } =
        some (receipts, s') ∧
      s'.memory =
        ["before porch: bell", "<closure>", "after porch: bell", "before inside: bell",
          "knock", "after inside: bell", "finished"] := by
  have hserved : ∃ receipts s',
      serveAll (fun _ _ => .noon) 2 Request.visit { machine := .newcomer, memory := [] } =
        some (receipts, s') := ⟨_, _, rfl⟩
  obtain ⟨receipts, s', hserved⟩ := hserved
  have haccounted := accounted_of_serveAll Request.visit_records hserved
  exact ⟨Request.visit_records, receipts, s', hserved, haccounted.record⟩

end Session
end Turnstile
