import Mathlib.Data.List.DropRight
import Turnstile.Proofs.Chart.Reach
import Turnstile.Proofs.Reachable

/-!
# The table of transitions replays the log of its declarations

Edits that declare transitions leave a log: an entry for every transition that was
registered and for every pair of states that was disabled, in the order of the calls, and
nothing for a call that was refused.  What a chart lists can be read off the log alone
(`Blueprint.table_replays_log`): sources and targets in the order in which the log names
them first, and between two states the transitions registered since they were last
disabled.

The connection is `Table.Replays`.  One entry is one write of the table, which keeps it
(`Replays.write`); all edits come down to rows of such writes (`table_of_tryEdit`).
-/

namespace Turnstile

variable {σ ε : Type}

/-- What a declaration leaves in the log. -/
inductive Entry (σ ε : Type) where
  | registered (t : Transition σ ε)
  | disabled (source target : String)

namespace Entry

def source : Entry σ ε → String
  | .registered t => t.source
  | .disabled source _ => source

def target : Entry σ ε → String
  | .registered t => t.target
  | .disabled _ target => target

/-- The entry does not disable the pair. -/
def spares (source target : String) : Entry σ ε → Bool
  | .registered _ => true
  | .disabled s t => ¬ (s = source ∧ t = target)

/-- The transition that the entry registers between the two states. -/
def registered? (source target : String) : Entry σ ε → Option (Transition σ ε)
  | .registered t => if t.source = source ∧ t.target = target then some t else none
  | .disabled _ _ => none

/-- What the entry makes of the transitions between its states. -/
def apply : Entry σ ε → List (Transition σ ε) → List (Transition σ ε)
  | .registered t, ts => ts ++ [t]
  | .disabled _ _, _ => []

end Entry

abbrev Log (σ ε : Type) := List (Entry σ ε)

namespace Log

/-- The sources in the order in which they are first named. -/
def sources (log : Log σ ε) : List String := (log.map Entry.source).eraseDups

/-- The targets of a source in the order in which they are first named. -/
def targets (log : Log σ ε) (source : String) : List String :=
  ((log.filter fun e => e.source = source).map Entry.target).eraseDups

/-- The transitions registered between two states since these were last disabled. -/
def standing (log : Log σ ε) (source target : String) : List (Transition σ ε) :=
  (log.rtakeWhile (Entry.spares source target)).filterMap (Entry.registered? source target)

theorem eraseDups_concat (names : List String) (name : String) :
    (names ++ [name]).eraseDups =
      if name ∈ names.eraseDups then names.eraseDups else names.eraseDups ++ [name] := by
  rw [List.eraseDups_append]
  by_cases hname : name ∈ names
  · simp [List.removeAll, hname, List.mem_eraseDups]
  · simp [List.removeAll, hname, List.mem_eraseDups, List.eraseDups_cons]

variable (log : Log σ ε) (e : Entry σ ε)

theorem sources_concat : sources (log ++ [e]) =
    if e.source ∈ log.sources then log.sources else log.sources ++ [e.source] := by
  rw [sources, List.map_append]
  exact eraseDups_concat _ _

theorem targets_concat_self : targets (log ++ [e]) e.source =
    if e.target ∈ log.targets e.source then log.targets e.source
    else log.targets e.source ++ [e.target] := by
  have hfilter : [e].filter (fun e' => e'.source = e.source) = [e] := by simp
  rw [targets, List.filter_append, hfilter, List.map_append]
  exact eraseDups_concat _ _

theorem targets_concat_of_ne {source : String} (hsource : source ≠ e.source) :
    targets (log ++ [e]) source = log.targets source := by
  have hfilter : [e].filter (fun e' => e'.source = source) = [] := by simp [hsource.symm]
  rw [targets, List.filter_append, hfilter, List.append_nil]
  rfl

theorem standing_concat_self : standing (log ++ [e]) e.source e.target =
    e.apply (log.standing e.source e.target) := by
  cases e with
  | registered t =>
    have hspared : (Entry.registered t).spares t.source t.target = true := rfl
    show standing (log ++ [.registered t]) t.source t.target = _ ++ [t]
    rw [standing, List.rtakeWhile_concat_pos _ _ _ hspared, List.filterMap_append]
    simp [Entry.registered?, standing, Entry.source, Entry.target]
  | disabled source target =>
    have hstop : ¬ (Entry.disabled source target : Entry σ ε).spares source target = true := by
      simp [Entry.spares]
    show standing (log ++ [.disabled source target]) source target = []
    rw [standing, List.rtakeWhile_concat_neg _ _ _ hstop, List.filterMap_nil]

theorem standing_concat_of_ne {source target : String}
    (hpair : ¬ (source = e.source ∧ target = e.target)) :
    standing (log ++ [e]) source target = log.standing source target := by
  have hspared : e.spares source target = true := by
    cases e with
    | registered t => rfl
    | disabled s t => exact decide_eq_true fun heq => hpair ⟨heq.1.symm, heq.2.symm⟩
  have hnone : e.registered? source target = none := by
    cases e with
    | registered t =>
      rw [Entry.registered?, if_neg]
      exact fun heq => hpair ⟨heq.1.symm, heq.2.symm⟩
    | disabled s t => rfl
  rw [standing, List.rtakeWhile_concat_pos _ _ _ hspared, List.filterMap_append]
  simp [hnone, standing]

end Log

theorem Ledger.values_eq {α : Type} {l : Ledger α} (hl : l.keys.Nodup) (default : α) :
    l.values = l.keys.map fun name => (l.get? name).getD default := by
  rw [values, keys, List.map_map]
  apply List.map_congr_left
  intro e he
  show e.2 = (l.get? e.1).getD default
  rw [get?_of_mem_entries hl he, Option.getD_some]

namespace Table

def row (table : Table σ ε) (source : String) : Ledger (List (Transition σ ε)) :=
  (table.get? source).getD Ledger.empty

theorem leaving_eq_ofRow (table : Table σ ε) (source : String) :
    table.leaving source = ofRow (table.row source) := by
  unfold leaving row
  cases table.get? source <;> rfl

theorem row_alter (table : Table σ ε) (source target other : String)
    (f : List (Transition σ ε) → List (Transition σ ε)) :
    (table.alter source target f).row other =
      if other = source then (table.row source).alter target fun ts => f (ts.getD [])
      else table.row other := by
  unfold row alter
  rw [Ledger.get?_alter]
  by_cases hother : other = source
  · rw [if_pos hother, if_pos hother, Option.getD_some]
  · rw [if_neg hother, if_neg hother]

theorem Distinct.nodup_keys_row {table : Table σ ε} (hd : table.Distinct) (source : String) :
    (table.row source).keys.Nodup := by
  unfold row
  cases hrow : table.get? source with
  | none => exact List.nodup_nil
  | some row => exact hd.targets _ (Ledger.mem_entries_of_get? hrow)

/-- Row by row and cell by cell, a table lists what can be looked up in it. -/
theorem Distinct.leaving_eq {table : Table σ ε} (hd : table.Distinct) (source : String) :
    table.leaving source = (table.row source).keys.flatMap (table.between source) := by
  rw [leaving_eq_ofRow, ofRow, Ledger.values_eq (hd.nodup_keys_row source) [], List.flatMap_def]
  rfl

theorem Distinct.all_eq {table : Table σ ε} (hd : table.Distinct) :
    table.all = table.keys.flatMap table.leaving := by
  rw [all, Ledger.values_eq hd.sources Ledger.empty, List.flatMap_map]
  congr 1
  funext source
  exact (leaving_eq_ofRow table source).symm

/-- Writes an entry of a log into the table. -/
def write (table : Table σ ε) : Entry σ ε → Table σ ε
  | .registered t => table.add t
  | .disabled source target => table.clear source target

theorem write_eq_alter (table : Table σ ε) (e : Entry σ ε) :
    table.write e = table.alter e.source e.target e.apply := by
  cases e <;> rfl

theorem foldl_write_registered (table : Table σ ε) (ts : List (Transition σ ε)) :
    (ts.map Entry.registered).foldl write table = ts.foldl add table := by
  rw [List.foldl_map]
  rfl

theorem row_write_of_ne (table : Table σ ε) {e : Entry σ ε} {source : String}
    (hsource : source ≠ e.source) : (table.write e).row source = table.row source := by
  rw [write_eq_alter, row_alter, if_neg hsource]

/-- A log says nothing of the sources that it does not name. -/
theorem row_foldl_write_of_notMem (table : Table σ ε) {log : Log σ ε} {source : String}
    (hsource : source ∉ log.sources) : (log.foldl write table).row source = table.row source := by
  rw [Log.sources, List.mem_eraseDups] at hsource
  induction log generalizing table with
  | nil => rfl
  | cons e log ih =>
    rw [List.map_cons, List.mem_cons, not_or] at hsource
    obtain ⟨hfirst, hrest⟩ := hsource
    rw [List.foldl_cons, ih _ hrest, row_write_of_ne table hfirst]

/-- The table lists what the log says, in the same order. -/
structure Replays (table : Table σ ε) (log : Log σ ε) : Prop where
  sources : table.keys = log.sources
  targets : ∀ source, (table.row source).keys = log.targets source
  cells : ∀ source target, table.between source target = log.standing source target

namespace Replays

theorem empty : Replays (Ledger.empty : Table σ ε) [] where
  sources := rfl
  targets := fun _ => rfl
  cells := fun _ _ => rfl

theorem write {table : Table σ ε} {log : Log σ ε} (hr : table.Replays log) (e : Entry σ ε) :
    (table.write e).Replays (log ++ [e]) := by
  rw [write_eq_alter]
  constructor
  case sources =>
    rw [alter, Ledger.keys_alter, hr.sources, Log.sources_concat]
  case targets =>
    intro source
    rw [row_alter]
    by_cases hsource : source = e.source
    · subst hsource
      rw [if_pos rfl, Ledger.keys_alter, hr.targets, Log.targets_concat_self]
    · rw [if_neg hsource, hr.targets, Log.targets_concat_of_ne _ _ hsource]
  case cells =>
    intro source target
    rw [between_alter]
    by_cases hpair : source = e.source ∧ target = e.target
    · obtain ⟨rfl, rfl⟩ := hpair
      rw [if_pos ⟨rfl, rfl⟩, hr.cells, Log.standing_concat_self]
    · rw [if_neg hpair, hr.cells, Log.standing_concat_of_ne _ _ hpair]

theorem foldl_write {table : Table σ ε} {log : Log σ ε} (hr : table.Replays log)
    (entries : Log σ ε) : (entries.foldl Table.write table).Replays (log ++ entries) := by
  induction entries generalizing table log with
  | nil =>
    rw [List.append_nil]
    exact hr
  | cons e entries ih =>
    have hrest := ih (hr.write e)
    rw [List.append_assoc, List.singleton_append] at hrest
    exact hrest

end Replays
end Table

theorem flatMap_ite_of_nodup {α β : Type} [DecidableEq α] {names : List α} (hnames : names.Nodup)
    (picked : α) (values : List β) :
    (names.flatMap fun name => if name = picked then values else []) =
      if picked ∈ names then values else [] := by
  induction names with
  | nil => rfl
  | cons name names ih =>
    obtain ⟨hname, hnames⟩ := List.nodup_cons.mp hnames
    rw [List.flatMap_cons, ih hnames]
    by_cases hsame : name = picked
    · subst hsame
      simp [hname]
    · simp [hsame, Ne.symm hsame]

namespace Chart.WellFormed

variable {c : Chart σ ε}

theorem filter_leaving (hc : c.WellFormed) (name source : String) :
    (c.leaving name).filter (fun t => t.source = source) =
      if name = source then c.leaving source else [] := by
  by_cases hname : name = source
  · subst hname
    rw [if_pos rfl, List.filter_eq_self]
    exact fun t ht => decide_eq_true (hc.of_mem_leaving ht).2
  · rw [if_neg hname, List.filter_eq_nil_iff]
    intro t ht hsource
    exact hname ((hc.of_mem_leaving ht).2.symm.trans (of_decide_eq_true hsource))

theorem filter_transitions (hc : c.WellFormed) (source : String) :
    c.transitions.filter (fun t => t.source = source) = c.leaving source := by
  have hall : c.transitions = c.table.keys.flatMap c.leaving := hc.distinct.all_eq
  simp only [hall, List.filter_flatMap, hc.filter_leaving]
  rw [flatMap_ite_of_nodup hc.distinct.sources]
  by_cases hkeys : source ∈ c.table.keys
  · rw [if_pos hkeys]
  · rw [if_neg hkeys]
    symm
    rw [List.eq_nil_iff_forall_not_mem]
    intro t ht
    obtain ⟨row, hrow, rfl, -⟩ := Table.mem_leaving ht
    exact hkeys (List.mem_map_of_mem hrow)

end Chart.WellFormed

/-- What an edit leaves in the log when it is not refused. -/
def Edit.entries : Edit σ ε → Log σ ε
  | .declareTransition t => [.registered t]
  | .disable source target => [.disabled source target]
  | .addTransitions ts => ts.map .registered
  | .define body =>
    let built : Except BranchError Unit × Outline σ ε :=
      Id.run ((body Handle.root).runOn Outline.root)
    (built.2.transitionsFrom Handle.root).map .registered
  | .declareState _ _ | .registerHook _ | .makeAllTransient | .setFactory _ | .inherit => []

/-- A hall with a ladder to the attic and a door to the loft.  Nobody may wait in the hall for
a while, and the way into the garden is refused, since there is no garden. -/
def Edit.attic : List (Edit Unit Unit) :=
  [.declareState "hall" {}, .declareState "attic" {}, .declareState "loft" {},
    .define fun root => do
      let hall ← root.startAt "hall"
      let up ← hall.onlyIf (.named "ladder")
      discard (up.goTo "attic")
      let below ← up.otherwise
      discard below.stay,
    .declareTransition { source := "hall", target := "loft" },
    .disable "hall" "hall",
    .define fun root => do
      let hall ← root.startAt "hall"
      discard (hall.goTo "garden"),
    .declareTransition { source := "hall", target := "hall", description := some "wait" }]

namespace Blueprint

/-- The log that edits of a blueprint leave. -/
def log (b : Blueprint σ ε) : List (Edit σ ε) → Log σ ε
  | [] => []
  | e :: edits =>
    match b.tryEdit e with
    | .ok b' => e.entries ++ b'.log edits
    | .error _ => b.log edits

theorem table_of_addTransitions {c c' : Chart σ ε} {ts : List (Transition σ ε)}
    (h : c.addTransitions ts = .ok c') :
    c'.table = (ts.map Entry.registered).foldl Table.write c.table := by
  obtain ⟨-, rfl⟩ := Chart.eq_of_checked h
  rw [Table.foldl_write_registered]

theorem table_of_addOutline {c c' : Chart σ ε} {built : Except BranchError Unit × Outline σ ε}
    (h : c.addOutline built = .ok c') :
    c'.table =
      ((built.2.transitionsFrom Handle.root).map Entry.registered).foldl Table.write c.table := by
  obtain ⟨result, o⟩ := built
  cases result with
  | error e => cases h
  | ok u => exact table_of_addTransitions h

theorem table_of_tryEdit {b b' : Blueprint σ ε} {e : Edit σ ε} (he : b.tryEdit e = .ok b') :
    b'.chart.table = e.entries.foldl Table.write b.chart.table := by
  cases e with
  | declareTransition t | disable source target =>
    obtain ⟨chart, hchart, rfl⟩ := exists_chart_of_map he
    obtain ⟨-, rfl⟩ := Chart.eq_of_checked hchart
    rfl
  | addTransitions ts =>
    obtain ⟨chart, hchart, rfl⟩ := exists_chart_of_map he
    exact table_of_addTransitions hchart
  | define body =>
    obtain ⟨chart, hchart, rfl⟩ := exists_chart_of_map he
    exact table_of_addOutline hchart
  | declareState | registerHook | makeAllTransient | setFactory | inherit =>
    obtain rfl := Except.ok.inj he
    rfl

/-- All that edits do to the table is to write the log that they leave. -/
theorem table_foldl_edit (b : Blueprint σ ε) (edits : List (Edit σ ε)) :
    (edits.foldl edit b).chart.table = (b.log edits).foldl Table.write b.chart.table := by
  induction edits generalizing b with
  | nil => rfl
  | cons e edits ih =>
    rw [List.foldl_cons, Blueprint.log, edit]
    cases he : b.tryEdit e with
    | error refusal => exact ih b
    | ok b' => rw [List.foldl_append, ← table_of_tryEdit he, ih b']

theorem replays_foldl_edit {b : Blueprint σ ε} {log : Log σ ε}
    (hr : b.chart.table.Replays log) (edits : List (Edit σ ε)) :
    (edits.foldl edit b).chart.table.Replays (log ++ b.log edits) := by
  rw [table_foldl_edit]
  exact hr.foldl_write (b.log edits)

theorem replays_log (edits : List (Edit σ ε)) :
    (edits.foldl edit empty).chart.table.Replays (empty.log edits) :=
  replays_foldl_edit (b := (empty : Blueprint σ ε)) Table.Replays.empty edits

/-- Whatever the edits are, the transitions of the chart are those of the log: target by
target from one state, and source by source altogether, so that those of one source can be
filtered out of them. -/
theorem table_replays_log (edits : List (Edit σ ε)) :
    let chart := (edits.foldl edit empty).chart
    let log := empty.log edits
    (∀ source, chart.leaving source = (log.targets source).flatMap (log.standing source)) ∧
    chart.transitions = log.sources.flatMap chart.leaving ∧
    ∀ source, chart.transitions.filter (fun t => t.source = source) = chart.leaving source := by
  intro chart log
  have hchart : chart.WellFormed := Reachable.wellFormed ⟨edits, rfl⟩
  have hreplays : chart.table.Replays log := replays_log edits
  refine ⟨fun source => ?_, ?_, hchart.filter_transitions⟩
  · have hcells : chart.table.between source = log.standing source := by
      funext target
      exact hreplays.cells source target
    rw [← hreplays.targets source, ← hcells]
    exact hchart.distinct.leaving_eq source
  · rw [← hreplays.sources]
    exact hchart.distinct.all_eq

/-- The branches that are defined are in the log and those that are refused are not.  Waiting in
the hall is listed in its old place when it is declared again. -/
theorem table_replays_log_attic :
    let up : Transition Unit Unit :=
      { source := "hall", target := "attic", condition := some (.named "ladder") }
    let below : Transition Unit Unit := { up with target := "hall", negate := true }
    let across : Transition Unit Unit := { source := "hall", target := "loft" }
    let wait : Transition Unit Unit :=
      { source := "hall", target := "hall", description := some "wait" }
    empty.log Edit.attic =
      [.registered up, .registered below, .registered across, .disabled "hall" "hall",
        .registered wait] ∧
    (Edit.attic.foldl edit empty).chart.leaving "hall" = [up, wait, across] := by
  intro up below across wait
  have hlog : empty.log Edit.attic =
      [.registered up, .registered below, .registered across, .disabled "hall" "hall",
        .registered wait] := rfl
  obtain ⟨hleaving, -⟩ := table_replays_log Edit.attic
  refine ⟨hlog, ?_⟩
  rw [hleaving, hlog]
  rfl

end Blueprint
end Turnstile
