import Turnstile.Chart.Drawing
import Turnstile.Proofs.Chart.Amendment
import Turnstile.Proofs.Chart.Log

/-!
# Disabling what was never declared

Two states between which no transition was ever declared can be disabled all the same.  One
would think that nothing comes of it, and so it looks at first.  But the pair now has a place
in the table, and what is declared for it later is listed there, before all that was declared
in the meantime (`Blueprint.not_forall_disable_unseen`).

Nothing else comes of it (`Blueprint.disable_keeps_place`).  Two tables of which one keeps a
place are compared write by write (`Table.Reserved`); a blueprint with another table answers
every edit as before and writes the same into it (`Blueprint.tryEdit_withTable`).
-/

namespace Turnstile

variable {σ ε : Type}

/-! ## Names with a place kept -/

/-- The second row of names keeps a place behind `front` for a name that the first row has
later, if at all. -/
inductive PlaceKept (name : String) (front : List String) : List String → List String → Prop
  | missing {passed : List String} (hname : name ∉ front ++ passed) :
      PlaceKept name front (front ++ passed) (front ++ name :: passed)
  | later {passed back : List String} (hname : name ∉ front ++ passed ++ back) :
      PlaceKept name front (front ++ passed ++ name :: back) (front ++ name :: (passed ++ back))

namespace PlaceKept

variable {name : String} {front names names' : List String}

theorem start (hname : name ∉ front) : PlaceKept name front front (front ++ [name]) := by
  have hmissing : PlaceKept name front (front ++ []) (front ++ [name]) :=
    .missing (by rwa [List.append_nil])
  rwa [List.append_nil] at hmissing

theorem mem_iff (h : PlaceKept name front names names') {other : String} (hother : other ≠ name) :
    other ∈ names' ↔ other ∈ names := by
  cases h with
  | missing | later => simp [hother]

theorem mem (h : PlaceKept name front names names') : name ∈ names' := by
  cases h with
  | missing | later => simp

/-- The place stays when both rows are made to name something. -/
theorem concat (h : PlaceKept name front names names') (other : String) :
    PlaceKept name front (if other ∈ names then names else names ++ [other])
      (if other ∈ names' then names' else names' ++ [other]) := by
  by_cases hother : other = name
  · subst hother
    rw [if_pos h.mem]
    cases h with
    | @missing passed hname =>
      have hlater : PlaceKept other front (front ++ passed ++ [other])
          (front ++ other :: (passed ++ [])) := .later (by rwa [List.append_nil])
      rw [List.append_nil] at hlater
      rw [if_neg hname]
      exact hlater
    | later hname =>
      rw [if_pos (List.mem_append_right _ List.mem_cons_self)]
      exact .later hname
  · by_cases hmem : other ∈ names
    · rw [if_pos hmem, if_pos ((h.mem_iff hother).mpr hmem)]
      exact h
    · rw [if_neg hmem, if_neg (mt (h.mem_iff hother).mp hmem)]
      have hsingle : name ∉ [other] := fun heq => hother (List.mem_singleton.mp heq).symm
      cases h with
      | @missing passed hname =>
        have hgrown : name ∉ front ++ (passed ++ [other]) := by
          rw [← List.append_assoc]
          exact List.not_mem_append hname hsingle
        simpa using PlaceKept.missing hgrown
      | @later passed back hname =>
        have hgrown : name ∉ front ++ passed ++ (back ++ [other]) := by
          rw [← List.append_assoc]
          exact List.not_mem_append hname hsingle
        simpa using PlaceKept.later hgrown

/-- Of lists that are read off both rows, name by name, the part of the name is moved forward
and all else stays. -/
theorem exists_flatMap_eq {α : Type} {f f' : String → List α}
    (h : PlaceKept name front names names') (hf : ∀ other, other ≠ name → f' other = f other)
    (hnone : name ∉ names → f name = []) :
    ∃ passed back, names.flatMap f = front.flatMap f ++ passed ++ f name ++ back ∧
      names'.flatMap f' = front.flatMap f ++ f' name ++ passed ++ back := by
  have hsame : ∀ part : List String, name ∉ part → part.flatMap f' = part.flatMap f :=
    fun part hpart => List.flatMap_congr fun other hmem =>
      hf other fun heq => hpart (heq ▸ hmem)
  cases h with
  | @missing passed hname =>
    refine ⟨passed.flatMap f, [], ?_, ?_⟩
    · rw [hnone hname, List.flatMap_append, List.append_nil, List.append_nil]
    · rw [List.mem_append, not_or] at hname
      rw [List.flatMap_append, List.flatMap_cons, hsame front hname.1, hsame passed hname.2]
      simp only [List.append_assoc, List.append_nil]
  | @later passed back hname =>
    rw [List.mem_append, List.mem_append, not_or, not_or] at hname
    refine ⟨passed.flatMap f, back.flatMap f, ?_, ?_⟩
    · simp only [List.flatMap_append, List.flatMap_cons, List.append_assoc]
    · rw [List.flatMap_append, List.flatMap_cons, List.flatMap_append, hsame front hname.1.1,
        hsame passed hname.1.2, hsame back hname.2]
      simp only [List.append_assoc]

end PlaceKept

/-! ## Tables with a place kept -/

/-- To write what a name holds already changes nothing. -/
theorem Ledger.alter_eq_self {α : Type} {l : Ledger α} {name : String} {value : α}
    {f : Option α → α} (hname : l.get? name = some value) (hf : f (some value) = value) :
    l.alter name f = l := by
  obtain ⟨es⟩ := l
  rw [alter]
  congr 1
  rw [get?] at hname
  induction es with
  | nil => cases hname
  | cons e es ih =>
    obtain ⟨key, held⟩ := e
    rw [alterIn]
    by_cases hkey : key = name
    · subst hkey
      rw [List.lookup_cons_self] at hname
      obtain rfl := Option.some.inj hname
      rw [if_pos rfl, hf]
    · have hne : (name == key) = false := beq_false_of_ne (Ne.symm hkey)
      rw [List.lookup_cons, hne] at hname
      rw [if_neg hkey, ih hname]

namespace Table

theorem clear_eq_self {table : Table σ ε} {source target : String}
    (htarget : target ∈ (table.row source).keys) (hnone : table.between source target = []) :
    table.clear source target = table := by
  rw [between] at hnone
  rw [row] at htarget
  cases hrow : table.get? source with
  | none =>
    rw [hrow] at htarget
    cases htarget
  | some row =>
    rw [hrow, Option.getD_some] at htarget hnone
    obtain ⟨ts, hcell⟩ := Option.ne_none_iff_exists'.mp fun hcell =>
      Ledger.get?_eq_none_iff.mp hcell htarget
    rw [hcell, Option.getD_some] at hnone
    subst hnone
    exact Ledger.alter_eq_self hrow (Ledger.alter_eq_self hcell rfl)

theorem leaving_of_notMem {table : Table σ ε} {source : String} (hsource : source ∉ table.keys) :
    table.leaving source = [] := by
  rw [leaving, Ledger.get?_eq_none_iff.mpr hsource]

/-- The second table has the same transitions between all states as the first, and keeps a
place for those from one state to another. -/
structure Reserved (source target : String) (sources targets : List String)
    (table table' : Table σ ε) : Prop where
  between : ∀ s t, table'.between s t = table.between s t
  row_of_ne : ∀ s, s ≠ source → table'.row s = table.row s
  targets : PlaceKept target targets (table.row source).keys (table'.row source).keys
  sources_of_mem : source ∈ sources → table'.keys = table.keys
  sources_of_notMem : source ∉ sources → PlaceKept source sources table.keys table'.keys

variable {source target : String} {sources targets : List String} {table table' : Table σ ε}

theorem reserved_clear (hnone : table.between source target = [])
    (htarget : target ∉ (table.row source).keys) :
    Reserved source target table.keys (table.row source).keys table
      (table.clear source target) where
  between := by
    intro s t
    rw [clear, between_alter]
    split
    · next heq => rw [heq.1, heq.2, hnone]
    · rfl
  row_of_ne := by
    intro s hs
    rw [clear, row_alter, if_neg hs]
  targets := by
    rw [clear, row_alter, if_pos rfl, Ledger.keys_alter, if_neg htarget]
    exact .start htarget
  sources_of_mem := by
    intro hmem
    rw [clear, alter, Ledger.keys_alter, if_pos hmem]
  sources_of_notMem := by
    intro hmem
    rw [clear, alter, Ledger.keys_alter, if_neg hmem]
    exact .start hmem

namespace Reserved

theorem write (h : Reserved source target sources targets table table') (e : Entry σ ε) :
    Reserved source target sources targets (table.write e) (table'.write e) := by
  rw [write_eq_alter, write_eq_alter]
  constructor
  case between =>
    intro s t
    rw [between_alter, between_alter, h.between, h.between]
  case row_of_ne =>
    intro s hs
    rw [row_alter, row_alter]
    split
    · next heq => rw [← heq, h.row_of_ne s hs]
    · exact h.row_of_ne s hs
  case targets =>
    rw [row_alter, row_alter]
    by_cases hsource : source = e.source
    · rw [if_pos hsource, if_pos hsource, Ledger.keys_alter, Ledger.keys_alter, ← hsource]
      exact h.targets.concat e.target
    · rw [if_neg hsource, if_neg hsource]
      exact h.targets
  case sources_of_mem =>
    intro hmem
    rw [alter, alter, Ledger.keys_alter, Ledger.keys_alter, h.sources_of_mem hmem]
  case sources_of_notMem =>
    intro hmem
    rw [alter, alter, Ledger.keys_alter, Ledger.keys_alter]
    exact (h.sources_of_notMem hmem).concat e.source

theorem foldl_write (h : Reserved source target sources targets table table')
    (log : Log σ ε) :
    Reserved source target sources targets (log.foldl Table.write table)
      (log.foldl Table.write table') := by
  induction log generalizing table table' with
  | nil => exact h
  | cons e log ih => exact ih (h.write e)

theorem exists_leaving_eq (h : Reserved source target sources targets table table')
    (hd : table.Distinct) (hd' : table'.Distinct) :
    ∃ passed back,
      table.leaving source = targets.flatMap (table.between source) ++ passed ++
        table.between source target ++ back ∧
      table'.leaving source = targets.flatMap (table.between source) ++
        table.between source target ++ passed ++ back := by
  have hcells : table'.between source = table.between source := funext (h.between source)
  rw [hd.leaving_eq, hd'.leaving_eq, hcells]
  refine h.targets.exists_flatMap_eq (fun _ _ => rfl) fun hmem => ?_
  rw [← Ledger.get?_eq_none_iff] at hmem
  show ((table.row source).get? target).getD [] = []
  rw [hmem, Option.getD_none]

theorem leaving_of_ne (h : Reserved source target sources targets table table') {s : String}
    (hs : s ≠ source) : table'.leaving s = table.leaving s := by
  rw [leaving_eq_ofRow, leaving_eq_ofRow, h.row_of_ne s hs]

theorem exists_all_eq (h : Reserved source target sources targets table table')
    (hd : table.Distinct) (hd' : table'.Distinct) (hsource : source ∉ sources) :
    ∃ passed back,
      table.all = sources.flatMap table.leaving ++ passed ++ table.leaving source ++ back ∧
      table'.all = sources.flatMap table.leaving ++ table'.leaving source ++ passed ++ back := by
  rw [hd.all_eq, hd'.all_eq]
  refine (h.sources_of_notMem hsource).exists_flatMap_eq (fun s hs => h.leaving_of_ne hs) ?_
  exact leaving_of_notMem

end Reserved
end Table

/-! ## Blueprints with another table -/

namespace Blueprint

def withTable (b : Blueprint σ ε) (table : Table σ ε) : Blueprint σ ε :=
  { b with chart := { b.chart with table } }

/-- Another table does not change what an edit answers and what it writes. -/
theorem tryEdit_withTable (b : Blueprint σ ε) (table : Table σ ε) (e : Edit σ ε) :
    (b.withTable table).tryEdit e =
      (b.tryEdit e).map fun b' => b'.withTable (e.entries.foldl Table.write table) := by
  have hadded : ∀ ts, (b.withTable table).tryEdit (.addTransitions ts) =
      (b.tryEdit (.addTransitions ts)).map fun b' =>
        b'.withTable ((ts.map Entry.registered).foldl Table.write table) := by
    intro ts
    rw [Table.foldl_write_registered, tryEdit, tryEdit, Chart.addTransitions,
      Chart.addTransitions, withTable, Chart.checkAll_with_table]
    cases b.chart.checkAll ts <;> rfl
  cases e with
  | declareTransition t =>
    have hcheck : (b.withTable table).chart.checkEnds t.source t.target =
        b.chart.checkEnds t.source t.target := rfl
    rw [tryEdit, tryEdit, Chart.declareTransition, Chart.declareTransition, hcheck]
    cases b.chart.checkEnds t.source t.target <;> rfl
  | disable source target =>
    have hcheck : (b.withTable table).chart.checkEnds source target =
        b.chart.checkEnds source target := rfl
    rw [tryEdit, tryEdit, Chart.disable, Chart.disable, hcheck]
    cases b.chart.checkEnds source target <;> rfl
  | addTransitions ts => exact hadded ts
  | define body =>
    rw [tryEdit_define, tryEdit_define, Edit.entries]
    rcases Id.run ((body Handle.root).runOn Outline.root) with ⟨refusal | u, o⟩
    · rfl
    · exact hadded (o.transitionsFrom Handle.root)
  | declareState | registerHook | makeAllTransient | setFactory | inherit => rfl

theorem foldl_edit_withTable (b : Blueprint σ ε) (table : Table σ ε) (edits : List (Edit σ ε)) :
    edits.foldl edit (b.withTable table) =
      (edits.foldl edit b).withTable ((b.log edits).foldl Table.write table) := by
  induction edits generalizing b table with
  | nil => rfl
  | cons e edits ih =>
    rw [List.foldl_cons, List.foldl_cons, log, edit, edit, tryEdit_withTable]
    cases b.tryEdit e with
    | error refusal => exact ih b table
    | ok b' =>
      rw [List.foldl_append]
      exact ih b' _

end Blueprint

/-! ## Steps on another chart -/

namespace Session

def onChart (s : Session σ ε) (c : Chart σ ε) : Session σ ε :=
  { s with machine := { s.machine with chart := c } }

/-- A step reads of the chart what leaves the state, the hooks, and which states there are. -/
theorem step_onChart {s : Session σ ε} {c : Chart σ ε}
    (hstates : ∀ name, c.state? name = s.machine.chart.state? name)
    (hhooks : c.hooks = s.machine.chart.hooks)
    (hleaving : c.leaving s.machine.state.name = s.machine.possible)
    (k : Handler σ ε) (now : Instant) (event : Option ε) :
    (s.onChart c).step k now event =
      ((s.step k now event).1, (s.step k now event).2.onChart c) := by
  have hpossible : (s.onChart c).machine.possible = s.machine.possible := hleaving
  have hunknown : (s.onChart c).unknown? k event = s.unknown? k event := by
    rw [unknown?, unknown?, hpossible]
    rfl
  have hopened : (s.onChart c).opened k event = s.opened k event := by
    rw [opened, opened, hpossible]
    rfl
  have htold : (s.onChart c).told k event = (s.told k event).onChart c := by
    rw [told, told, hpossible]
    rfl
  rcases hstep : s.step k now event with ⟨r, s'⟩
  cases stepped_of_step hstep with
  | unknown hname =>
    rw [← htold]
    exact step_of_stepped (.unknown (hunknown.trans hname))
  | stuck hknown hopen hstate =>
    rw [← htold]
    exact step_of_stepped (.stuck (hunknown.trans hknown) (hopened.trans hopen) hstate)
  | finished hknown hopen hstate =>
    have hfinished : Stepped k now event (s.onChart c) _ _ :=
      .finished (hunknown.trans hknown) (hopened.trans hopen) hstate
    rw [htold] at hfinished
    exact step_of_stepped hfinished
  | ambiguous hknown hopen =>
    rw [← htold]
    exact step_of_stepped (.ambiguous (hunknown.trans hknown) (hopened.trans hopen))
  | lost hknown hopen htarget =>
    rw [← htold]
    exact step_of_stepped (.lost (hunknown.trans hknown) (hopened.trans hopen)
      ((hstates _).trans htarget))
  | @moved t target fault memory hknown hopen htarget hcalls =>
    refine step_of_stepped (.moved (hunknown.trans hknown) (hopened.trans hopen)
      ((hstates _).trans htarget) ?_)
    rw [htold]
    show Call.makeAll k t event (t.calls c.hooks) (s.told k event).memory = _
    rw [hhooks, hcalls]

end Session

/-! ## What a place changes -/

namespace Chart

/-- The charts list the same transitions in the same order. -/
structure ListsAlike (c c' : Chart σ ε) : Prop where
  leaving : ∀ name, c'.leaving name = c.leaving name
  transitions : c'.transitions = c.transitions
  draw : c'.draw = c.draw

/-- The second chart lists the transitions from one state to another in a place behind those
that the log names, and is otherwise the first chart.  If the log names the pair already, the
charts are the same, and if it names the source, only the row of the source can differ. -/
structure KeepsPlace (log : Log σ ε) (source target : String) (c c' : Chart σ ε) : Prop where
  states : c'.states = c.states
  hooks : c'.hooks = c.hooks
  between : ∀ s t, c'.table.between s t = c.table.between s t
  leaving_of_ne : ∀ s, s ≠ source → c'.leaving s = c.leaving s
  same : target ∈ log.targets source → c' = c
  leaving : target ∉ log.targets source →
    ∃ passed back,
      c.leaving source = (log.targets source).flatMap (c.table.between source) ++ passed ++
        c.table.between source target ++ back ∧
      c'.leaving source = (log.targets source).flatMap (c.table.between source) ++
        c.table.between source target ++ passed ++ back
  transitions_of_mem : source ∈ log.sources →
    ∃ names : List String, c.transitions = names.flatMap c.leaving ∧
      c'.transitions = names.flatMap c'.leaving
  transitions : source ∉ log.sources →
    ∃ passed back,
      c.transitions = log.sources.flatMap c.leaving ++ passed ++ c.leaving source ++ back ∧
      c'.transitions = log.sources.flatMap c.leaving ++ c'.leaving source ++ passed ++ back

namespace KeepsPlace

variable {log : Log σ ε} {source target : String} {c c' : Chart σ ε}

theorem refl (hsource : source ∈ log.sources) (htarget : target ∈ log.targets source)
    (hd : c.table.Distinct) : KeepsPlace log source target c c where
  states := rfl
  hooks := rfl
  between := fun _ _ => rfl
  leaving_of_ne := fun _ _ => rfl
  same := fun _ => rfl
  leaving := fun hmem => absurd htarget hmem
  transitions_of_mem := fun _ => ⟨c.table.keys, hd.all_eq, hd.all_eq⟩
  transitions := fun hmem => absurd hsource hmem

theorem leaving_eq (h : KeepsPlace log source target c c')
    (hnone : c.table.between source target = []) (name : String) :
    c'.leaving name = c.leaving name := by
  by_cases hname : name = source
  · subst hname
    by_cases htarget : target ∈ log.targets name
    · rw [h.same htarget]
    · obtain ⟨passed, back, hc, hc'⟩ := h.leaving htarget
      rw [hc, hc', hnone, List.append_nil, List.append_nil]
  · exact h.leaving_of_ne name hname

/-- Nothing is seen of a place that is empty, and that was kept in a row which is empty or was
there before. -/
theorem listsAlike (h : KeepsPlace log source target c c')
    (hnone : c.table.between source target = [])
    (hsource : source ∈ log.sources ∨ c.leaving source = []) : c.ListsAlike c' := by
  have hleaving : c'.leaving = c.leaving := funext (h.leaving_eq hnone)
  have htransitions : c'.transitions = c.transitions := by
    by_cases hmem : source ∈ log.sources
    · obtain ⟨names, hc, hc'⟩ := h.transitions_of_mem hmem
      rw [hc, hc', hleaving]
    · have hempty : c.leaving source = [] := hsource.resolve_left hmem
      obtain ⟨passed, back, hc, hc'⟩ := h.transitions hmem
      rw [hc, hc', hleaving, hempty, List.append_nil, List.append_nil]
  refine ⟨congrFun hleaving, htransitions, ?_⟩
  rw [draw, draw, h.states, htransitions]

end KeepsPlace
end Chart

/-! ## Main statement -/

/-- What was never registered does not stand. -/
theorem Log.standing_eq_nil {log : Log σ ε} {source target : String}
    (hnone : ∀ t, .registered t ∈ log → ¬ (t.source = source ∧ t.target = target)) :
    log.standing source target = [] := by
  rw [standing, List.filterMap_eq_nil_iff]
  intro e he
  cases e with
  | registered t => exact if_neg (hnone t ((List.rtakeWhile_suffix _ _).subset he))
  | disabled s t => rfl

theorem Log.source_mem_sources {log : Log σ ε} {source target : String}
    (htarget : target ∈ log.targets source) : source ∈ log.sources := by
  rw [targets, List.mem_eraseDups, List.mem_map] at htarget
  obtain ⟨e, he, -⟩ := htarget
  obtain ⟨he, hsource⟩ := List.mem_filter.mp he
  rw [sources, List.mem_eraseDups]
  exact List.mem_map.mpr ⟨e, he, of_decide_eq_true hsource⟩

theorem Table.Distinct.foldl_write {table : Table σ ε} (hd : table.Distinct) (log : Log σ ε) :
    (log.foldl Table.write table).Distinct := by
  induction log generalizing table with
  | nil => exact hd
  | cons e log ih =>
    rw [List.foldl_cons, write_eq_alter]
    exact ih (hd.alter _ _ _)

namespace Blueprint

theorem between_eq_nil {before : List (Edit σ ε)} {source target : String}
    (hnone : ∀ t, .registered t ∈ empty.log before →
      ¬ (t.source = source ∧ t.target = target)) :
    (before.foldl edit empty).chart.table.between source target = [] := by
  rw [(replays_log before).cells, Log.standing_eq_nil hnone]

/-- A pair that was never registered has the place that it is given by clearing it, whatever is
edited then. -/
theorem keepsPlace_withTable (before after : List (Edit σ ε)) {source target : String}
    (hnone : ∀ t, .registered t ∈ empty.log before →
      ¬ (t.source = source ∧ t.target = target)) :
    let b := before.foldl edit empty
    let d := after.foldl edit b
    Chart.KeepsPlace (empty.log before) source target d.chart
      (d.withTable
        ((b.log after).foldl Table.write (b.chart.table.clear source target))).chart := by
  intro b d
  have hreplays := replays_log before
  have hempty := between_eq_nil hnone
  have hb : b.chart.table.Distinct := (Reachable.wellFormed ⟨before, rfl⟩).distinct
  have htable : d.chart.table = (b.log after).foldl Table.write b.chart.table :=
    table_foldl_edit b after
  have hd : d.chart.table.Distinct := by
    rw [htable]
    exact hb.foldl_write _
  by_cases htarget : target ∈ (empty.log before).targets source
  · have hsame : b.chart.table.clear source target = b.chart.table :=
      Table.clear_eq_self (by rwa [hreplays.targets]) hempty
    rw [hsame, ← htable]
    exact .refl (Log.source_mem_sources htarget) htarget hd
  · have hreserved := (Table.reserved_clear hempty (by rwa [hreplays.targets])).foldl_write
      (b.log after)
    rw [hreplays.sources, hreplays.targets, ← htable] at hreserved
    have hd' := (hb.alter source target fun _ => []).foldl_write (b.log after)
    constructor
    case states => rfl
    case hooks => rfl
    case between => exact hreserved.between
    case leaving_of_ne => exact fun s hs => hreserved.leaving_of_ne hs
    case same => exact fun hmem => absurd hmem htarget
    case leaving => exact fun _ => hreserved.exists_leaving_eq hd hd'
    case transitions_of_mem =>
      intro hsource
      refine ⟨d.chart.table.keys, hd.all_eq, ?_⟩
      rw [← hreserved.sources_of_mem hsource]
      exact hd'.all_eq
    case transitions => exact fun hsource => hreserved.exists_all_eq hd hd' hsource

/-- To disable two declared states between which nothing was ever registered shows at no list
at once, but it keeps a place for them from then on.  If the pair had one, because it was
disabled before, nothing changes.

Whatever is edited afterwards is answered as it would have been.  The lists are as they would
have been but for what is registered between the two states later: that moves forward, behind
the targets that were named before, over those that have been named since, and if nothing was
declared from the source before, so does all that leaves it.  Steps from all other states go as
they would have gone.  As long as nothing stands between the two, steps from the source do too,
and all lists are the same, if the source was named before or nothing leaves it. -/
theorem disable_keeps_place (before : List (Edit σ ε)) {source target : String}
    (hdeclared : ∀ name ∈ [source, target],
      ((before.foldl edit empty).chart.state? name).isSome = true)
    (hnone : ∀ t, .registered t ∈ empty.log before →
      ¬ (t.source = source ∧ t.target = target)) :
    let b := before.foldl edit empty
    let log := empty.log before
    ∃ b', b.tryEdit (.disable source target) = .ok b' ∧
      b.chart.ListsAlike b'.chart ∧
      ∀ after : List (Edit σ ε),
        let d := after.foldl edit b
        let d' := after.foldl edit b'
        (∀ e, (d'.tryEdit e).map (fun _ => ()) = (d.tryEdit e).map fun _ => ()) ∧
        d'.factory = d.factory ∧
        Chart.KeepsPlace log source target d.chart d'.chart ∧
        (∀ s : Session σ ε, s.machine.chart = d.chart →
          s.machine.state.name ≠ source ∨ d.chart.table.between source target = [] →
          ∀ k now event, (s.onChart d'.chart).step k now event =
            ((s.step k now event).1, (s.step k now event).2.onChart d'.chart)) ∧
        (d.chart.table.between source target = [] →
          source ∈ log.sources ∨ d.chart.leaving source = [] →
          d.chart.ListsAlike d'.chart) := by
  intro b log
  have hdisabled : b.tryEdit (.disable source target) =
      .ok (b.withTable (b.chart.table.clear source target)) := by
    have hends : b.chart.checkEnds source target = .ok () := Chart.checkEnds_eq_ok_iff.mpr
      ⟨hdeclared _ List.mem_cons_self, hdeclared _ (List.mem_cons_of_mem _ List.mem_cons_self)⟩
    rw [tryEdit, Chart.disable, hends]
    rfl
  refine ⟨_, hdisabled, ?_, ?_⟩
  · have hplace := keepsPlace_withTable before [] hnone
    refine hplace.listsAlike (between_eq_nil hnone) ?_
    by_cases hsource : source ∈ log.sources
    · exact .inl hsource
    · rw [← (replays_log before).sources] at hsource
      exact .inr (Table.leaving_of_notMem hsource)
  · intro after d d'
    have hd' : d' = d.withTable ((b.log after).foldl Table.write
        (b.chart.table.clear source target)) := foldl_edit_withTable b _ after
    have hplace : Chart.KeepsPlace log source target d.chart d'.chart := by
      rw [hd']
      exact keepsPlace_withTable before after hnone
    refine ⟨?_, ?_, hplace, ?_, hplace.listsAlike⟩
    · intro e
      rw [hd', tryEdit_withTable]
      cases d.tryEdit e <;> rfl
    · rw [hd']
      rfl
    · intro s hchart hwhere k now event
      apply Session.step_onChart
      · intro name
        rw [hchart, hd']
        rfl
      · rw [hchart, hplace.hooks]
      · rw [Machine.possible, hchart]
        rcases hwhere with hne | hempty
        · exact hplace.leaving_of_ne _ hne
        · exact hplace.leaving_eq hempty _

/-- The street with a garden that is open to it, and a hall that is not. -/
def frontage : List (Edit Bool String) :=
  [.declareState "street" { initial := true }, .declareState "garden" {},
    .declareState "hall" {}, .declareState "room" {},
    .declareTransition { source := "street", target := "garden" }]

theorem frontage_disable_keeps_place :
    let later : List (Edit Bool String) :=
      [.declareTransition { source := "street", target := "room" },
        .declareTransition { source := "street", target := "hall" }]
    let b := frontage.foldl edit empty
    ∃ b', b.tryEdit (.disable "street" "hall") = .ok b' ∧ b.chart.ListsAlike b'.chart ∧
      ((later.take 1).foldl edit b).chart.ListsAlike ((later.take 1).foldl edit b').chart ∧
      Chart.KeepsPlace (empty.log frontage) "street" "hall" (later.foldl edit b).chart
        (later.foldl edit b').chart ∧
      ((later.foldl edit b).chart.leaving "street").map Transition.target =
        ["garden", "room", "hall"] ∧
      ((later.foldl edit b').chart.leaving "street").map Transition.target =
        ["garden", "hall", "room"] := by
  intro later b
  have hnone : ∀ t, .registered t ∈ empty.log frontage →
      ¬ (t.source = "street" ∧ t.target = "hall") := by
    intro t ht
    obtain rfl := Entry.registered.inj (List.mem_singleton.mp ht)
    decide
  obtain ⟨b', hdisabled, halike, hlater⟩ := disable_keeps_place frontage (by decide) hnone
  refine ⟨b', hdisabled, halike, ?_, (hlater later).2.2.1, rfl, ?_⟩
  · exact (hlater (later.take 1)).2.2.2.2 rfl (.inl List.mem_cons_self)
  · obtain rfl := Except.ok.inj hdisabled
    rfl

/-- Disabling a pair that was never registered can be seen later. -/
theorem not_forall_disable_unseen :
    ¬ ∀ (before : List (Edit Bool String)) (source target : String),
      (∀ name ∈ [source, target],
        ((before.foldl edit empty).chart.state? name).isSome = true) →
      (∀ t, .registered t ∈ empty.log before → ¬ (t.source = source ∧ t.target = target)) →
      ∀ b', (before.foldl edit empty).tryEdit (.disable source target) = .ok b' →
        ∀ after : List (Edit Bool String),
          (after.foldl edit (before.foldl edit empty)).chart.ListsAlike
            (after.foldl edit b').chart := by
  intro hunseen
  let before : List (Edit Bool String) :=
    [.declareState "street" { initial := true }, .declareState "hall" {},
      .declareState "garden" {}]
  let after : List (Edit Bool String) :=
    [.declareTransition { source := "street", target := "garden" },
      .declareTransition { source := "street", target := "hall" }]
  have halike := hunseen before "street" "hall" (by decide) (fun _ => nofun) _ rfl after
  have htargets : ["hall", "garden"] = ["garden", "hall"] :=
    congrArg (List.map Transition.target) (halike.leaving "street")
  exact absurd htargets (by decide)

end Blueprint
end Turnstile
