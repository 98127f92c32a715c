import Mathlib.Data.Multiset.ZeroCons
import Turnstile.Proofs.Machine.Request
import Turnstile.Proofs.Reachable

/-!
# The order of transitions

A step asks for the conditions of all transitions from a state before it makes one of
them.  The order in which the transitions were declared is then the order of reports: in
which order conditions are asked for, and in which order the targets are listed where
several transitions are open.  It decides nothing else, as long as the handler knows
every condition by name.

A handler that keeps an account of what it was asked shows the order in its memory.  What
is compared of two memories is therefore a view of them, and a handler is impartial under
a view when nothing that it answers depends on more than the view, and when the view
does not show the order of the account.  A handler without an account is impartial under
the view that shows all of its memory (`Handler.impartial_id`).
-/

namespace Turnstile

variable {σ ε τ : Type}

/-- The charts differ at most in the order of transitions from the same state. -/
structure Chart.Rearranged (c c' : Chart σ ε) : Prop where
  state?_eq : ∀ name, c.state? name = c'.state? name
  hooks_eq : c.hooks = c'.hooks
  leaving_perm : ∀ source, (c.leaving source).Perm (c'.leaving source)

/-- The faults are equal but for the order in which an ambiguous step lists its targets. -/
inductive Fault.Reordered : Fault → Fault → Prop
  | refl (e : Fault) : Reordered e e
  | ambiguous (state : String) {targets targets' : List String} (hp : targets.Perm targets') :
      Reordered (.ambiguous state targets) (.ambiguous state targets')

/-- A caller who overlooks the order of targets, and of the memory all but a view. -/
def Leeway.order (view : σ → τ) : Leeway σ :=
  { fault := Fault.Reordered, memory := fun x y => view x = view y, time := Eq,
    fault_refl := .refl }

/-! ## Impartial handlers -/

namespace Handler

/-- The handler knows every condition of the chart by name. -/
def Resolves (h : Handler σ ε) (c : Chart σ ε) : Prop :=
  ∀ t ∈ c.transitions, ∀ name, t.condition = some (.named name) →
    ∀ event x, h.condition name event x ≠ none

/-- Whatever is asked or called for the chart goes by the view of the memory alone, and the
view does not show in which order conditions were asked. -/
structure Impartial (h : Handler σ ε) (c : Chart σ ε) (view : σ → τ) : Prop where
  value : ∀ t ∈ c.transitions, ∀ k, t.condition = some k →
    ∀ event x y, view x = view y → k.value h event x = k.value h event y
  make : ∀ t ∈ c.transitions, ∀ k ∈ t.calls c.hooks,
    ∀ event x y, view x = view y → (k.make h t event x).1 = (k.make h t event y).1 ∧
      view (k.make h t event x).2 = view (k.make h t event y).2
  finished : ∀ x y, view x = view y → view (h.finished x) = view (h.finished y)
  asked : ∀ k event answer x y, view x = view y →
    view (h.asked k event answer x) = view (h.asked k event answer y)
  asked_comm : ∀ k k' event answer answer' x,
    view (h.asked k event answer (h.asked k' event answer' x)) =
      view (h.asked k' event answer' (h.asked k event answer x))

/-- A handler that keeps no account is impartial under the view of its whole memory. -/
theorem impartial_id {h : Handler σ ε}
    (hasked : ∀ k event answer x, h.asked k event answer x = x) (c : Chart σ ε) :
    h.Impartial c id where
  value := fun _ _ k _ event _ _ hxy => congrArg (k.value h event) hxy
  make := by
    rintro t - k - event x y (rfl : x = y)
    exact ⟨rfl, rfl⟩
  finished := fun _ _ hxy => congrArg h.finished hxy
  asked := fun k event answer _ _ hxy => congrArg (h.asked k event answer) hxy
  asked_comm := fun k k' event answer answer' x => by simp only [hasked]

theorem Resolves.unknown?_eq_none {h : Handler σ ε} {c : Chart σ ε} (hr : h.Resolves c)
    {t : Transition σ ε} (ht : t ∈ c.transitions) (event : Option ε) (x : σ) :
    t.unknown? h event x = none := by
  unfold Transition.unknown?
  split
  · next name hname =>
    rw [if_neg]
    simpa using hr t ht name hname event x
  · rfl

/-- Where every name is known, every condition is asked for. -/
theorem answers_eq_filterMap {h : Handler σ ε} {event : Option ε} {x : σ}
    {ts : List (Transition σ ε)} (hknown : ∀ t ∈ ts, t.unknown? h event x = none) :
    h.answers event x ts =
      ts.filterMap fun t => t.condition.map fun k => (k, k.value h event x) := by
  have hrow := answers_append hknown []
  rwa [List.append_nil, answers, List.append_nil, List.map_filterMap] at hrow

namespace Impartial

variable {h : Handler σ ε} {c : Chart σ ε} {view : σ → τ} {event : Option ε} {x y : σ}

theorem isOpen_eq (hh : h.Impartial c view) {t : Transition σ ε} (ht : t ∈ c.transitions)
    (hxy : view x = view y) : t.isOpen h event x = t.isOpen h event y := by
  unfold Transition.isOpen
  cases hcondition : t.condition with
  | none => rfl
  | some k => simp only [hh.value t ht k hcondition event x y hxy]

theorem tell_eq (hh : h.Impartial c view) (answers : List (Condition σ ε × Option Bool))
    (hxy : view x = view y) : view (h.tell event x answers) = view (h.tell event y answers) := by
  induction answers generalizing x y with
  | nil => exact hxy
  | cons a answers ih => exact ih (hh.asked a.1 event a.2 x y hxy)

/-- Being told of the same answers in another order leads to the same view. -/
theorem tell_perm (hh : h.Impartial c view)
    {answers answers' : List (Condition σ ε × Option Bool)} (hp : answers.Perm answers')
    (hxy : view x = view y) :
    view (h.tell event x answers) = view (h.tell event y answers') := by
  induction hp generalizing x y with
  | nil => exact hxy
  | cons a _ ih => exact ih (hh.asked a.1 event a.2 x y hxy)
  | swap a b rest =>
    refine hh.tell_eq rest ?_
    rw [hh.asked_comm]
    exact hh.asked b.1 event b.2 _ _ (hh.asked a.1 event a.2 x y hxy)
  | trans _ _ ih ih' => exact (ih hxy).trans (ih' rfl)

theorem filter_isOpen_perm (hh : h.Impartial c view) {ts ts' : List (Transition σ ε)}
    (hp : ts.Perm ts') (hts : ∀ t ∈ ts, t ∈ c.transitions) (hxy : view x = view y) :
    (ts.filter (Transition.isOpen h event x)).Perm
      (ts'.filter (Transition.isOpen h event y)) := by
  rw [List.filter_congr fun t ht => hh.isOpen_eq (hts t ht) hxy]
  exact hp.filter _

theorem answers_perm (hh : h.Impartial c view) (hr : h.Resolves c)
    {ts ts' : List (Transition σ ε)} (hp : ts.Perm ts') (hts : ∀ t ∈ ts, t ∈ c.transitions)
    (hxy : view x = view y) : (h.answers event x ts).Perm (h.answers event y ts') := by
  have hknown : ∀ t ∈ ts, ∀ z, t.unknown? h event z = none := fun t ht =>
    hr.unknown?_eq_none (hts t ht) event
  have hsame : ts.filterMap (fun t => t.condition.map fun k => (k, k.value h event x)) =
      ts.filterMap (fun t => t.condition.map fun k => (k, k.value h event y)) := by
    refine List.filterMap_congr fun t ht => ?_
    cases hcondition : t.condition with
    | none => rfl
    | some k =>
      rw [Option.map_some, Option.map_some, hh.value t (hts t ht) k hcondition event x y hxy]
  rw [answers_eq_filterMap fun t ht => hknown t ht x,
    answers_eq_filterMap fun t ht => hknown t (hp.mem_iff.mpr ht) y, hsame]
  exact hp.filterMap _

theorem makeAll_eq (hh : h.Impartial c view) {t : Transition σ ε} (ht : t ∈ c.transitions)
    (event : Option ε) {calls : List (Call σ ε)} (hcalls : ∀ k ∈ calls, k ∈ t.calls c.hooks)
    (hxy : view x = view y) :
    (Call.makeAll h t event calls x).1 = (Call.makeAll h t event calls y).1 ∧
      view (Call.makeAll h t event calls x).2 = view (Call.makeAll h t event calls y).2 := by
  induction calls generalizing x y with
  | nil => exact ⟨rfl, hxy⟩
  | cons k calls ih =>
    obtain ⟨hk, hrest⟩ := List.forall_mem_cons.mp hcalls
    obtain ⟨hfault, hview⟩ := hh.make t ht k hk event x y hxy
    obtain ⟨hlater, hlast⟩ := ih hrest hview
    simp only [Call.makeAll]
    exact ⟨congrArg₂ Option.or hfault hlater, hlast⟩

end Impartial
end Handler

/-- The handler of the request knows the conditions of the chart, and neither it nor the
caller goes by more than the view. -/
structure Request.Impartial (q : Request σ ε) (c : Chart σ ε) (view : σ → τ) : Prop where
  resolves : q.handler.Resolves c
  handler : q.handler.Impartial c view
  prepare : ∀ x y, view x = view y → view (q.prepare x) = view (q.prepare y)

/-! ## Sessions on rearranged charts -/

namespace Session

/-- The sessions have come from two others and still stand in the same state, with the same
view of their memories.  If the machines had made the same transition last, or had the same
history, they still have. -/
structure Abreast (view : σ → τ) (s₀ u₀ s u : Session σ ε) : Prop where
  chart_left : s.machine.chart = s₀.machine.chart
  chart_right : u.machine.chart = u₀.machine.chart
  state : s.machine.state = u.machine.state
  memory : view s.memory = view u.memory
  latest : s₀.machine.latest = u₀.machine.latest → s.machine.latest = u.machine.latest
  history : s₀.machine.history = u₀.machine.history → s.machine.history = u.machine.history

namespace Abreast

variable {view : σ → τ} {s₀ u₀ s u : Session σ ε} {h : Handler σ ε}

theorem possible_perm (hs : Abreast view s₀ u₀ s u)
    (hc : s₀.machine.chart.Rearranged u₀.machine.chart) :
    s.machine.possible.Perm u.machine.possible := by
  rw [Machine.possible, Machine.possible, hs.chart_left, hs.chart_right, hs.state]
  exact hc.leaving_perm _

theorem mem_transitions (hs : Abreast view s₀ u₀ s u) {t : Transition σ ε}
    (ht : t ∈ s.machine.possible) : t ∈ s₀.machine.chart.transitions := by
  rw [Machine.possible, hs.chart_left] at ht
  exact Table.mem_all_of_mem_leaving ht

theorem unknown?_eq_none (hs : Abreast view s₀ u₀ s u)
    (hc : s₀.machine.chart.Rearranged u₀.machine.chart) (hr : h.Resolves s₀.machine.chart)
    (event : Option ε) :
    s.unknown? h event = none ∧ u.unknown? h event = none := by
  constructor
  · exact List.findSome?_eq_none_iff.mpr fun t ht =>
      hr.unknown?_eq_none (hs.mem_transitions ht) event _
  · exact List.findSome?_eq_none_iff.mpr fun t ht =>
      hr.unknown?_eq_none (hs.mem_transitions ((hs.possible_perm hc).mem_iff.mpr ht)) event _

theorem told (hs : Abreast view s₀ u₀ s u)
    (hc : s₀.machine.chart.Rearranged u₀.machine.chart) (hr : h.Resolves s₀.machine.chart)
    (hh : h.Impartial s₀.machine.chart view) (event : Option ε) :
    Abreast view s₀ u₀ (s.told h event) (u.told h event) := by
  have hanswers : (h.answers event s.memory s.machine.possible).Perm
      (h.answers event u.memory u.machine.possible) :=
    hh.answers_perm hr (hs.possible_perm hc) (fun _ => hs.mem_transitions) hs.memory
  exact { hs with memory := hh.tell_perm hanswers hs.memory }

theorem perform (hs : Abreast view s₀ u₀ s u)
    (hc : s₀.machine.chart.Rearranged u₀.machine.chart)
    (hh : h.Impartial s₀.machine.chart view) {t : Transition σ ε}
    (ht : t ∈ s₀.machine.chart.transitions) (now : Instant) (event : Option ε) :
    (s.perform h now event t).1 = (u.perform h now event t).1 ∧
      Abreast view s₀ u₀ (s.perform h now event t).2 (u.perform h now event t).2 := by
  rw [Session.perform, Session.perform, hs.chart_left, hs.chart_right, ← hc.hooks_eq,
    ← hc.state?_eq]
  cases s₀.machine.chart.state? t.target with
  | none => exact ⟨rfl, hs⟩
  | some target =>
    obtain ⟨hfault, hview⟩ := hh.makeAll_eq ht event (fun _ hk => hk) hs.memory
    refine ⟨by simp only [hfault], ?_⟩
    exact
      { chart_left := hs.chart_left
        chart_right := hs.chart_right
        state := rfl
        memory := hview
        latest := fun _ => rfl
        history := fun hhistory =>
          congrArg (History.record · { source := t.source, target := t.target, time := now })
            (hs.history hhistory) }

theorem proceed (hs : Abreast view s₀ u₀ s u)
    (hc : s₀.machine.chart.Rearranged u₀.machine.chart)
    (hh : h.Impartial s₀.machine.chart view) {ts ts' : List (Transition σ ε)} (hp : ts.Perm ts')
    (hts : ∀ t ∈ ts, t ∈ s₀.machine.chart.transitions) (now : Instant) (event : Option ε) :
    (Leeway.order view).Answers (s.proceed h now event ts).1 (u.proceed h now event ts').1 ∧
      Abreast view s₀ u₀ (s.proceed h now event ts).2 (u.proceed h now event ts').2 := by
  match ts, ts', hp.length_eq with
  | [], [], _ =>
    rw [Session.proceed, Session.proceed, hs.state]
    split
    · exact ⟨.error (.refl _), hs⟩
    · exact ⟨.ok _, { hs with memory := hh.finished _ _ hs.memory }⟩
  | [t], [t'], _ =>
    obtain rfl : t = t' := List.singleton_perm_singleton.mp hp
    have ht : t ∈ s₀.machine.chart.transitions := hts t (List.mem_singleton_self t)
    obtain ⟨hresult, hnext⟩ := hs.perform hc hh ht now event
    rw [Session.proceed, Session.proceed, hresult]
    exact ⟨Leeway.Answers.refl _, hnext⟩
  | t :: v :: ts, t' :: v' :: ts', _ =>
    refine ⟨?_, hs⟩
    show (Leeway.order view).Answers (.error (.ambiguous s.machine.state.name _))
      (.error (.ambiguous u.machine.state.name _))
    rw [hs.state]
    exact .error (.ambiguous _ (hp.map Transition.target))

theorem step (hs : Abreast view s₀ u₀ s u)
    (hc : s₀.machine.chart.Rearranged u₀.machine.chart) (hr : h.Resolves s₀.machine.chart)
    (hh : h.Impartial s₀.machine.chart view) (now : Instant) (event : Option ε) :
    (Leeway.order view).Answers (s.step h now event).1 (u.step h now event).1 ∧
      Abreast view s₀ u₀ (s.step h now event).2 (u.step h now event).2 := by
  obtain ⟨hknown, hknown'⟩ := hs.unknown?_eq_none hc hr event
  have hopened : (s.opened h event).Perm (u.opened h event) :=
    hh.filter_isOpen_perm (hs.possible_perm hc) (fun _ => hs.mem_transitions) hs.memory
  have hmem : ∀ t ∈ s.opened h event, t ∈ s₀.machine.chart.transitions := fun t ht =>
    hs.mem_transitions (List.mem_filter.mp ht).1
  rw [step_of_known hknown, step_of_known hknown']
  exact (hs.told hc hr hh event).proceed hc hh hopened hmem now event

theorem lockstep (hc : s₀.machine.chart.Rearranged u₀.machine.chart) {q : Request σ ε}
    (hq : q.Impartial s₀.machine.chart view) :
    Lockstep (Leeway.order view) (Abreast view s₀ u₀) q where
  state := fun hs => hs.state
  memory := fun hs => hs.memory
  prepare := fun hs => { hs with memory := hq.prepare _ _ hs.memory }
  step := by
    rintro s u hs now - rfl
    exact hs.step hc hq.resolves hq.handler now q.event

end Abreast
end Session

/-! ## A crossroads -/

/-- The path that leads from the square to a place, under a condition named after it. -/
def Transition.path (place : String) : Transition (List String) String :=
  { source := "square", target := place, condition := some (.named place),
    action := some (.named "walk") }

def Chart.crossroads (places : List String) : Chart (List String) String :=
  { Chart.empty.declareStates
      [{ name := "square", flags := { initial := true } }, { name := "mill", flags := {} },
        { name := "ford", flags := { final := true } }] with
    table := (places.map Transition.path).foldl Table.add Ledger.empty }

/-- Takes any path when it is given no direction.  Writes down each name that it hears and
each walk. -/
def Handler.walker : Handler (List String) String :=
  { condition := fun name event _ => some (event.all (· == name))
    action := fun name _ notes => (some (.ok ()), name :: notes)
    asked := fun k _ _ notes => k.label :: notes }

/-- A walker who does not write down what it hears. -/
def Handler.stroller : Handler (List String) String :=
  { walker with asked := fun _ _ _ notes => notes }

/-- How often each word was written down. -/
def Handler.tally (notes : List String) : Multiset String := notes

/-- Stands in the square of a crossroads with nothing written down. -/
def Session.lost (places : List String) : Session (List String) String :=
  { machine :=
      { chart := .crossroads places, state := { name := "square", flags := { initial := true } },
        latest := none, history := .empty }
    memory := [] }

theorem Chart.exists_path_of_mem_crossroads {t : Transition (List String) String}
    (ht : t ∈ (crossroads ["mill", "ford"]).transitions) : ∃ place, t = .path place := by
  have hpaths : (crossroads ["mill", "ford"]).transitions = [.path "mill", .path "ford"] := rfl
  rw [hpaths, List.mem_pair] at ht
  exact ht.elim (⟨_, ·⟩) (⟨_, ·⟩)

theorem Chart.crossroads_rearranged :
    (crossroads ["mill", "ford"]).Rearranged (crossroads ["ford", "mill"]) where
  state?_eq := fun _ => rfl
  hooks_eq := rfl
  leaving_perm := by
    intro source
    by_cases hsource : source = "square"
    · subst hsource
      exact .swap _ _ _
    · simp [crossroads, leaving, Table.leaving, Table.add, Table.alter, Ledger.get?_alter,
        Transition.path, hsource]

/-- Asks for any way first, and then for the way to the ford. -/
def Handler.outing (h : Handler (List String) String) : List (Request (List String) String) :=
  [{ drive := .step, handler := h }, { drive := .run, handler := h, event := some "ford" }]

theorem Handler.outing_impartial {h : Handler (List String) String}
    {c : Chart (List String) String} {view : List String → τ} (hr : h.Resolves c)
    (hh : h.Impartial c view) : ∀ q ∈ h.outing, q.Impartial c view := by
  intro q hq
  obtain rfl | rfl := List.mem_pair.mp hq
  all_goals exact ⟨hr, hh, fun _ _ hxy => hxy⟩

/-- The walker's notes show what was heard and done once the order is left aside. -/
theorem Handler.walker_impartial :
    walker.Impartial (.crossroads ["mill", "ford"]) tally where
  value := by
    intro t ht k hk event x y _
    obtain ⟨place, rfl⟩ := Chart.exists_path_of_mem_crossroads ht
    obtain rfl : .named place = k := Option.some.inj hk
    rfl
  make := by
    intro t ht k hk event x y hxy
    obtain ⟨place, rfl⟩ := Chart.exists_path_of_mem_crossroads ht
    obtain rfl : k = .action (.named "walk") := List.mem_singleton.mp hk
    exact ⟨rfl, congrArg (Multiset.cons "walk") hxy⟩
  finished := fun _ _ hxy => hxy
  asked := fun k _ _ _ _ hxy => congrArg (Multiset.cons k.label) hxy
  asked_comm := fun k k' _ _ _ notes => Multiset.cons_swap k.label k'.label notes

namespace Session

/-! ## Main statement -/

/-- The order in which transitions are declared decides the order of reports and nothing
else.  Take machines in the same state on charts that differ at most in that order, and
handlers with the same view of their memories that know all conditions.  Whatever row of
requests both serve, neither comes to an end, or each request is answered alike: with the
same result, but for the order of the targets of an ambiguous step, in the same state and
with the same view of the memory.  What the machines did last and their histories stay the
same if they were. -/
theorem serveAll_of_rearranged {view : σ → τ} {s u : Session σ ε}
    (hc : s.machine.chart.Rearranged u.machine.chart)
    (hstate : s.machine.state = u.machine.state) (hmemory : view s.memory = view u.memory)
    {requests : List (Request σ ε)}
    (hrequests : ∀ q ∈ requests, q.Impartial s.machine.chart view)
    (clock : Nat → Nat → Instant) (budget : Nat) :
    Matching (List.Forall₂ (Leeway.order view).Receipts) (Abreast view s u)
      (s.serveAll clock budget requests) (u.serveAll clock budget requests) := by
  have hstart : Abreast view s u s u := ⟨rfl, rfl, hstate, hmemory, id, id⟩
  exact Lockstep.serveAll (fun q hq => Abreast.lockstep hc (hrequests q hq)) hstart
    (fun _ _ => rfl) budget

theorem serveAll_crossroads :
    ((lost ["mill", "ford"]).serveAll (fun _ _ => .noon) 1 Handler.walker.outing).map
        (fun served => (served.1.map Receipt.reply, served.2.memory)) =
      some ([.step (.error (.ambiguous "square" ["mill", "ford"])),
          .run (.ok { state := "ford", steps := 1, status := .final })],
        ["walk", "ford", "mill", "ford", "mill"]) ∧
    ((lost ["ford", "mill"]).serveAll (fun _ _ => .noon) 1 Handler.walker.outing).map
        (fun served => (served.1.map Receipt.reply, served.2.memory)) =
      some ([.step (.error (.ambiguous "square" ["ford", "mill"])),
          .run (.ok { state := "ford", steps := 1, status := .final })],
        ["walk", "mill", "ford", "mill", "ford"]) ∧
    Matching (List.Forall₂ (Leeway.order Handler.tally).Receipts)
      (Abreast Handler.tally (lost ["mill", "ford"]) (lost ["ford", "mill"]))
      ((lost ["mill", "ford"]).serveAll (fun _ _ => .noon) 1 Handler.walker.outing)
      ((lost ["ford", "mill"]).serveAll (fun _ _ => .noon) 1 Handler.walker.outing) ∧
    Matching (List.Forall₂ (Leeway.order id).Receipts)
      (Abreast id (lost ["mill", "ford"]) (lost ["ford", "mill"]))
      ((lost ["mill", "ford"]).serveAll (fun _ _ => .noon) 1 Handler.stroller.outing)
      ((lost ["ford", "mill"]).serveAll (fun _ _ => .noon) 1 Handler.stroller.outing) := by
  have hknown : ∀ h : Handler (List String) String, h.condition = Handler.walker.condition →
      h.Resolves (.crossroads ["mill", "ford"]) := by
    intro h hcondition t _ name _ event notes
    rw [hcondition]
    exact Option.some_ne_none _
  have hwalker := Handler.outing_impartial (hknown .walker rfl) Handler.walker_impartial
  have hstroller := Handler.outing_impartial (hknown .stroller rfl)
    (Handler.impartial_id (fun _ _ _ _ => rfl) _)
  refine ⟨rfl, rfl, ?_, ?_⟩
  · exact serveAll_of_rearranged (s := lost ["mill", "ford"]) (u := lost ["ford", "mill"])
      Chart.crossroads_rearranged rfl rfl hwalker (fun _ _ => .noon) 1
  · exact serveAll_of_rearranged (s := lost ["mill", "ford"]) (u := lost ["ford", "mill"])
      Chart.crossroads_rearranged rfl rfl hstroller (fun _ _ => .noon) 1

end Session
end Turnstile
