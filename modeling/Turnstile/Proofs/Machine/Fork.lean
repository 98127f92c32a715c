import Turnstile.Proofs.Branch.Fork
import Turnstile.Proofs.Chart.Amendment
import Turnstile.Proofs.Chart.Log

/-!
# Forks

A fork that is defined has its two transitions among those that leave its source
(`Blueprint.exists_tryEdit_fork`).  When there are no others, just one of them is open in
every step from there, as soon as the handler knows the condition, and the step is made
along it (`Session.exists_step_of_forksAt`).  Together with what `otherwise` does to the
branches of an outline, this leads from the calls that build a fork to the steps that a
machine makes there (`otherwise_decides`).
-/

namespace Turnstile

variable {σ ε : Type}

/-! ## Adding to a table -/

/-- A value put at the end of an entry is put at the end of all, but for the order. -/
theorem Ledger.perm_flatten_alterIn {α : Type} (name : String) (value : α)
    (es : List (String × List α)) :
    ((alterIn name (fun values => values.getD [] ++ [value]) es).map Prod.snd).flatten.Perm
      ((es.map Prod.snd).flatten ++ [value]) := by
  induction es with
  | nil => exact .refl _
  | cons e es ih =>
    obtain ⟨key, values⟩ := e
    by_cases hkey : key = name
    · rw [alterIn, if_pos hkey, List.map_cons, List.map_cons, List.flatten_cons,
        List.flatten_cons, Option.getD_some, List.append_assoc, List.append_assoc]
      exact List.perm_append_comm.append_left values
    · rw [alterIn, if_neg hkey, List.map_cons, List.map_cons, List.flatten_cons,
        List.flatten_cons, List.append_assoc]
      exact ih.append_left values

namespace Table

theorem perm_leaving_add (table : Table σ ε) {t : Transition σ ε} {source : String}
    (ht : t.source = source) :
    ((table.add t).leaving source).Perm (table.leaving source ++ [t]) := by
  rw [leaving_eq_ofRow, leaving_eq_ofRow, add, row_alter, if_pos ht.symm, ht]
  exact Ledger.perm_flatten_alterIn t.target t (table.row source).entries

theorem perm_leaving_foldl_add (table : Table σ ε) {ts : List (Transition σ ε)} {source : String}
    (hts : ∀ t ∈ ts, t.source = source) :
    ((ts.foldl add table).leaving source).Perm (table.leaving source ++ ts) := by
  induction ts generalizing table with
  | nil =>
    rw [List.append_nil]
    exact .refl _
  | cons t ts ih =>
    obtain ⟨ht, hts⟩ := List.forall_mem_cons.mp hts
    have hfirst := (table.perm_leaving_add ht).append_right ts
    rw [List.append_assoc, List.singleton_append] at hfirst
    exact (ih (table.add t) hts).trans hfirst

end Table

/-! ## Defining a fork -/

/-- A fork between declared states can be defined, and adds its transitions to those that
leave its source. -/
theorem Blueprint.exists_tryEdit_fork (b : Blueprint σ ε) {source first second : String}
    (hdeclared : ∀ name ∈ [source, first, second], (b.chart.state? name).isSome = true)
    (negate : Bool) (c : Condition σ ε) :
    ∃ b', b.tryEdit (.define fun root => root.fork source negate c first second) = .ok b' ∧
      (b'.chart.leaving source).Perm
        (b.chart.leaving source ++ Transition.forked source negate c first second) := by
  obtain ⟨o, hrun, hadded⟩ := Handle.exists_run_fork Outline.Planted.root (h := Handle.root)
    List.mem_cons_self rfl source negate c first second
  rw [show (Outline.root : Outline σ ε).transitionsFrom Handle.root = [] from rfl,
    List.nil_append] at hadded
  have hforked : ∀ t ∈ o.transitionsFrom Handle.root,
      t.source = source ∧ (t.target = first ∨ t.target = second) :=
    fun t ht => Transition.ends_of_mem_forked (hadded.mem_iff.mp ht)
  have hends : ∀ t ∈ o.transitionsFrom Handle.root, b.chart.Admits t := by
    intro t ht
    obtain ⟨hsource, htarget⟩ := hforked t ht
    constructor
    · exact hdeclared _ (by simp [hsource])
    · exact hdeclared _ (by rcases htarget with htarget | htarget <;> simp [htarget])
  refine ⟨_, tryEdit_define_of_admits hrun hends, ?_⟩
  have hleaving := b.chart.table.perm_leaving_foldl_add fun t ht => (hforked t ht).1
  exact hleaving.trans (hadded.append_left _)

/-! ## Steps at a fork -/

/-- All that leaves the state are the two ways of a fork, whatever is done on them. -/
def Chart.ForksAt (chart : Chart σ ε) (source : String) (negate : Bool) (c : Condition σ ε)
    (first second : String) : Prop :=
  ((chart.leaving source).map Transition.way).Perm
    ((Transition.forked source negate c first second).map Transition.way)

namespace Transition

variable {t : Transition σ ε} {c : Condition σ ε} {k : Handler σ ε} {event : Option ε} {x : σ}
  {holds : Bool}

theorem unknown?_eq_none (hc : t.condition = some c) (hvalue : c.value k event x = some holds) :
    t.unknown? k event x = none := by
  unfold unknown?
  cases c with
  | predicate tag test => rw [hc]
  | named name =>
    have hknown : k.condition name event x = some holds := hvalue
    simp only [hc, hknown, Option.isNone_some, Bool.false_eq_true, if_false]

theorem isOpen_eq (hc : t.condition = some c) (hvalue : c.value k event x = some holds) :
    t.isOpen k event x = (holds != t.negate) := by
  unfold isOpen
  simp only [hc, hvalue, Option.any_some]

end Transition

namespace Chart.ForksAt

variable {chart : Chart σ ε} {source first second : String} {negate : Bool}
  {c : Condition σ ε}

theorem condition_eq (hf : chart.ForksAt source negate c first second) {t : Transition σ ε}
    (ht : t ∈ chart.leaving source) : t.condition = some c := by
  have hway := hf.mem_iff.mp (List.mem_map_of_mem ht)
  simp only [Transition.forked, Transition.way, List.map_cons, List.map_nil, List.mem_cons,
    List.not_mem_nil, or_false, Prod.mk.injEq] at hway
  rcases hway with hway | hway
  · exact hway.2.2.1
  · exact hway.2.2.1

/-- One of the two ways is open, and the value of the condition says which. -/
theorem exists_filter_eq (hf : chart.ForksAt source negate c first second) (holds : Bool) :
    ∃ t, (chart.leaving source).filter (fun t => holds != t.negate) = [t] ∧
      t.source = source ∧ t.target = if holds != negate then first else second := by
  let taken (way : String × String × Option (Condition σ ε) × Bool) : Bool := holds != way.2.2.2
  have hways : (((chart.leaving source).filter (taken ∘ Transition.way)).map Transition.way).Perm
      [(source, if holds != negate then first else second, some c, !holds)] := by
    rw [← List.filter_map]
    refine (hf.filter taken).trans (.of_eq ?_)
    cases holds <;> cases negate <;> rfl
  obtain ⟨t, ht, hway⟩ := List.map_eq_singleton_iff.mp hways.eq_singleton
  rw [Transition.way, Prod.mk.injEq, Prod.mk.injEq] at hway
  exact ⟨t, ht, hway.1, hway.2.1⟩

end Chart.ForksAt

/-- At a fork whose condition the handler knows a step is made, to the first state or to
the second as the condition holds or not. -/
theorem Session.exists_step_of_forksAt {s : Session σ ε} {source first second : String}
    {negate holds : Bool} {c : Condition σ ε} {k : Handler σ ε} {event : Option ε}
    (hchart : s.machine.chart.WellFormed) (hsource : s.machine.state.name = source)
    (hf : s.machine.chart.ForksAt source negate c first second)
    (hvalue : c.value k event s.memory = some holds) (now : Instant) :
    let target := if holds != negate then first else second
    ∃ deferred s', s.step k now event = (.ok (.moved source target deferred), s') ∧
      s.machine.chart.state? target = some s'.machine.state := by
  intro target
  subst hsource
  have hcondition : ∀ t ∈ s.machine.possible, t.condition = some c := fun t => hf.condition_eq
  have hknown : s.unknown? k event = none := by
    rw [unknown?, List.findSome?_eq_none_iff]
    intro t ht
    exact Transition.unknown?_eq_none (hcondition t ht) hvalue
  obtain ⟨t, ht, hleaves, hleads⟩ := hf.exists_filter_eq holds
  have hopen : s.opened k event = [t] := by
    rw [← ht]
    apply List.filter_congr
    intro t ht
    exact Transition.isOpen_eq (hcondition t ht) hvalue
  have hstep := exists_step_of_opened hchart hknown hopen now
  rwa [hleaves, hleads] at hstep

/-! ## Main statement -/

/-- A condition and the calls of `otherwise` behind it decide between their branches.  None
of these calls is refused.  For every handler and event the answer for the transition of the
last branch is that for the first after an even number of calls and the opposite one after
an odd number, and one of them is a fault just if the other is the same fault.

A fork can be built wherever a source can be set, and it can be defined between declared
states; its two transitions are then among those that leave its source.  When these are the
only ones there, every step from the source whose handler knows the condition is made, to
the first state if the condition holds, as it is or turned around, and to the second if
not. -/
theorem otherwise_decides :
    (∀ (d : Draft σ ε) h, (d.outline.branch h).condition.isSome = true →
      ∀ n i o, d.outline.Alternative h n i o →
        (∃ j o', o.otherwise i = .ok (j, o')) ∧
        ∀ t t', (o.branch h).transition? = some t → (o.branch i).transition? = some t' →
          ∀ (k : Handler σ ε) event x,
            (Even n → t'.eligible k event x = t.eligible k event x) ∧
            (Odd n → t'.eligible k event x = (t.eligible k event x).map not)) ∧
    (∀ (d : Draft σ ε), ∀ h ∈ d.outline.handles, (d.outline.branch h).source = none →
      ∀ source negate c first second,
        ∃ o, Id.run ((h.fork source negate c first second).runOn d.outline) = (.ok (), o) ∧
          (o.transitionsFrom Handle.root).Perm
            (d.outline.transitionsFrom Handle.root ++
              Transition.forked source negate c first second)) ∧
    (∀ (b : Blueprint σ ε) source negate c first second,
      (∀ name ∈ [source, first, second], (b.chart.state? name).isSome = true) →
        ∃ b', b.tryEdit (.define fun root => root.fork source negate c first second) = .ok b' ∧
          (b'.chart.leaving source).Perm
            (b.chart.leaving source ++ Transition.forked source negate c first second)) ∧
    ∀ (b : Blueprint σ ε), b.Reachable → ∀ s : Session σ ε, s.machine.chart = b.chart →
      ∀ source negate c first second, s.machine.state.name = source →
        b.chart.ForksAt source negate c first second →
          ∀ k event holds, c.value k event s.memory = some holds → ∀ now,
            let target := if holds != negate then first else second
            ∃ deferred s', s.step k now event = (.ok (.moved source target deferred), s') ∧
              b.chart.state? target = some s'.machine.state := by
  refine ⟨?_, ?_, ?_, ?_⟩
  · intro d h hc n i o hi
    have hh := d.planted.mem_handles_of_condition hc
    have hfacing := hi.facing d.planted hc
    refine ⟨hfacing.exists_otherwise hc, ?_⟩
    intro t t' ht ht' k event x
    exact hfacing.eligible hh hc ht ht' k event x
  · intro d h hh hsource source negate c first second
    exact Handle.exists_run_fork d.planted hh hsource source negate c first second
  · intro b source negate c first second hdeclared
    exact b.exists_tryEdit_fork hdeclared negate c
  · intro b hb s hchart source negate c first second hsource hf k event holds hvalue now
    have hwell := hb.wellFormed
    rw [← hchart] at hwell hf ⊢
    exact Session.exists_step_of_forksAt hwell hsource hf hvalue now

/-- The street forks: to the hall unless that is locked, and otherwise to the garden. -/
def Blueprint.crossing : Blueprint Bool String :=
  [.declareState "street" { initial := true }, .declareState "hall" {},
    .declareState "garden" {},
    .define fun root => root.fork "street" true (.named "locked") "hall" "garden"].foldl
      edit empty

theorem otherwise_decides_crossing :
    let hall : Transition Bool String :=
      { source := "street", target := "hall", condition := some (.named "locked"), negate := true }
    let garden : Transition Bool String :=
      { source := "street", target := "garden", condition := some (.named "locked") }
    let stroller (locked : Bool) : Session Bool String :=
      { machine :=
          { chart := Blueprint.crossing.chart
            state := { name := "street", flags := { initial := true } }
            latest := none
            history := .empty }
        memory := locked }
    (∀ (k : Handler Bool String) event x,
      garden.eligible k event x = (hall.eligible k event x).map not) ∧
    Blueprint.crossing.Reachable ∧
    (∃ deferred s',
      (stroller false).step .porter .noon none = (.ok (.moved "street" "hall" deferred), s')) ∧
    ∃ deferred s',
      (stroller true).step .porter .noon none = (.ok (.moved "street" "garden" deferred), s') := by
  intro hall garden stroller
  obtain ⟨hdrafts, -, -, hsteps⟩ := @otherwise_decides Bool String
  refine ⟨?_, ⟨_, rfl⟩, ?_⟩
  · let guarded : Handle := { number := 2 }
    let other : Handle := { number := 3 }
    let d : Draft Bool String :=
      .call Handle.root (.startAt "street") fun _ =>
        .call { number := 1 } (.onlyUnless (.named "locked")) fun _ => .done
    let later : Draft Bool String :=
      .call guarded (.goTo "hall") fun _ => .call other (.goTo "garden") fun _ => .done
    have hother : d.outline.Alternative guarded 1 other _ := .draft (.otherwise .self rfl) later
    intro k event x
    exact ((hdrafts d guarded rfl 1 other _ hother).2 hall garden rfl rfl k event x).2 odd_one
  · have hforks : Blueprint.crossing.chart.ForksAt "street" true (.named "locked") "hall"
        "garden" := .refl _
    have hstep (locked : Bool) := hsteps _ ⟨_, rfl⟩ (stroller locked) rfl _ _ _ _ _ rfl hforks
      .porter none locked rfl .noon
    obtain ⟨deferred, s', hopen, -⟩ := hstep false
    obtain ⟨deferred', s'', hlocked, -⟩ := hstep true
    exact ⟨⟨deferred, s', hopen⟩, deferred', s'', hlocked⟩

end Turnstile
