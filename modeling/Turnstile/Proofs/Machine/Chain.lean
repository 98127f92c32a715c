import Turnstile.Proofs.Branch.Chain
import Turnstile.Proofs.Machine.Fork

/-!
# Steps at a chain of cases

A chain reads as if its cases were tried in order, and as if its last way were taken when
none of them holds.  A step does not go by the order.  It looks for all transitions that are
open, and the last two of the chain are each other's opposites, whatever the earlier cases
say.  So one of the two is open in every step, and every earlier case that holds is one too
many (`chain_steps`): a chain goes by its last condition alone, and only as long as no other
holds.
-/

namespace Turnstile

variable {σ ε : Type}

/-! ## Adding to new places of a table -/

theorem Ledger.alterIn_of_notMem {α : Type} {name : String} (f : Option α → α)
    {es : List (String × α)} (hname : name ∉ es.map Prod.fst) :
    alterIn name f es = es ++ [(name, f none)] := by
  induction es with
  | nil => rfl
  | cons e es ih =>
    rw [List.map_cons, List.mem_cons, not_or] at hname
    rw [alterIn, if_neg (Ne.symm hname.1), ih hname.2, List.cons_append]

namespace Table

theorem leaving_add_of_notMem (table : Table σ ε) {t : Transition σ ε}
    (ht : t.target ∉ (table.row t.source).keys) :
    (table.add t).leaving t.source = table.leaving t.source ++ [t] := by
  rw [leaving_eq_ofRow, leaving_eq_ofRow, add, row_alter, if_pos rfl, Ledger.alter, ofRow,
    Ledger.values, Ledger.alterIn_of_notMem _ ht, List.map_append, List.flatten_append]
  rfl

/-- Transitions from one state to others that are new to it are listed in their order. -/
theorem leaving_foldl_add (table : Table σ ε) {ts : List (Transition σ ε)} {source : String}
    (hts : ∀ t ∈ ts, t.source = source)
    (hnew : ((table.row source).keys ++ ts.map Transition.target).Nodup) :
    (ts.foldl add table).leaving source = table.leaving source ++ ts := by
  induction ts generalizing table with
  | nil => rw [List.foldl_nil, List.append_nil]
  | cons t ts ih =>
    obtain ⟨rfl, hts⟩ := List.forall_mem_cons.mp hts
    rw [List.map_cons] at hnew
    have ht : t.target ∉ (table.row t.source).keys := fun hmem =>
      List.disjoint_of_nodup_append hnew hmem List.mem_cons_self
    have hkeys : ((table.add t).row t.source).keys = (table.row t.source).keys ++ [t.target] := by
      rw [add, row_alter, if_pos rfl, Ledger.keys_alter, if_neg ht]
    rw [List.foldl_cons, ih (table.add t) hts, leaving_add_of_notMem table ht, List.append_assoc,
      List.singleton_append]
    rw [hkeys, List.append_assoc, List.singleton_append]
    exact hnew

end Table

/-! ## The first declaration from a state -/

namespace Blueprint

/-- Of every session that stands in the state the property holds, however the blueprint is
edited further, unless more is declared from that state. -/
def AlwaysAt (b : Blueprint σ ε) (source : String) (P : Session σ ε → Prop) : Prop :=
  ∀ after, source ∉ (b.log after).sources →
    ∀ s : Session σ ε, s.machine.chart = (after.foldl edit b).chart →
      s.machine.state.name = source → P s

/-- When nothing has been declared from a state before, what is built from there to distinct
states can be defined, and is then all that leaves it, in the order in which it was built. -/
theorem exists_alwaysAt_of_define {before : List (Edit σ ε)} {source : String}
    (hfresh : source ∉ (empty.log before).sources) (body : Handle → Build σ ε Unit)
    {o : Outline σ ε} {ts : List (Transition σ ε)}
    (hrun : Id.run ((body Handle.root).runOn Outline.root) = (.ok (), o))
    (hbuilt : o.transitionsFrom Handle.root = ts) (hsource : ∀ t ∈ ts, t.source = source)
    (hdeclared : ∀ name ∈ source :: ts.map Transition.target,
      ((before.foldl edit empty).chart.state? name).isSome = true)
    (hdistinct : (ts.map Transition.target).Nodup) :
    ∃ b', (before.foldl edit empty).tryEdit (.define body) = .ok b' ∧
      b'.AlwaysAt source fun s => s.machine.chart.WellFormed ∧ s.machine.possible = ts := by
  subst hbuilt
  have hends : ∀ t ∈ o.transitionsFrom Handle.root,
      (before.foldl edit empty).chart.Admits t := by
    intro t ht
    constructor
    · exact hdeclared _ (hsource t ht ▸ List.mem_cons_self)
    · exact hdeclared _ (List.mem_cons_of_mem _ (List.mem_map_of_mem ht))
  obtain ⟨b', hdefined⟩ : ∃ b', (before.foldl edit empty).tryEdit (.define body) = .ok b' :=
    ⟨_, tryEdit_define_of_admits hrun hends⟩
  have htable : b'.chart.table = (o.transitionsFrom Handle.root).foldl Table.add
      (before.foldl edit empty).chart.table := by
    rw [table_of_tryEdit hdefined, Edit.entries, hrun, Table.foldl_write_registered]
  have hempty : (before.foldl edit empty).chart.table.row source = Ledger.empty := by
    rw [table_foldl_edit, Table.row_foldl_write_of_notMem _ hfresh]
    rfl
  refine ⟨b', hdefined, ?_⟩
  intro after hafter s hchart hplace
  constructor
  · have hedits : (before ++ .define body :: after).foldl edit empty = after.foldl edit b' := by
      rw [List.foldl_append, List.foldl_cons, edit, hdefined]
    rw [hchart, ← hedits]
    exact Reachable.wellFormed ⟨_, rfl⟩
  · -- the row of the source is empty before the definition and not written after it
    rw [Machine.possible, hplace, hchart, Chart.leaving, table_foldl_edit,
      Table.leaving_eq_ofRow, Table.row_foldl_write_of_notMem _ hafter, ← Table.leaving_eq_ofRow,
      htable, Table.leaving_foldl_add _ hsource (by rw [hempty]; exact hdistinct),
      Table.leaving_eq_ofRow, hempty]
    rfl

end Blueprint

/-! ## What is open -/

section Open

variable (k : Handler σ ε) (event : Option ε) (x : σ)

namespace Case

def holds (case : Case σ ε) : Bool := case.condition.value k event x = some true

/-- Where the last case of a chain leads, with another way out. -/
def leadsTo (case : Case σ ε) (other : String) : String :=
  if case.holds k event x then case.target else other

end Case

namespace Transition

variable {k event x} {case : Case σ ε}

theorem isOpen_ofCase (source : String) :
    (ofCase source case).isOpen k event x = case.holds k event x := by
  unfold isOpen ofCase Case.holds
  cases hvalue : case.condition.value k event x <;> simp [hvalue]

theorem isOpen_ofElse (source target : String)
    (hknown : case.condition.value k event x ≠ none) :
    (ofElse source case.condition target).isOpen k event x = !case.holds k event x := by
  obtain ⟨b, hb⟩ := Option.ne_none_iff_exists'.mp hknown
  unfold isOpen ofElse Case.holds
  cases b <;> simp [hb]

theorem filter_isOpen_chain (source : String) (cases : List (Case σ ε)) :
    (chain source cases).filter (isOpen k event x) =
      chain source (cases.filter (Case.holds k event x)) := by
  rw [chain, List.filter_map]
  congr 1
  apply List.filter_congr
  intro case _
  exact isOpen_ofCase source

theorem filter_isOpen_chainElse (source : String) (earlier : List (Case σ ε)) {last : Case σ ε}
    (hlast : last.condition.value k event x ≠ none) (other : String) :
    (chainElse source earlier last other).filter (isOpen k event x) =
      chain source (earlier.filter (Case.holds k event x)) ++
        [if last.holds k event x then ofCase source last
          else ofElse source last.condition other] := by
  have hother := isOpen_ofElse source other hlast
  rw [chainElse, List.filter_append, filter_isOpen_chain, List.filter_append, chain, chain,
    List.map_append, List.append_assoc]
  congr 1
  cases hholds : last.holds k event x <;>
    simp [hholds, hother]

theorem exists_case_of_mem_chain {source : String} {cases : List (Case σ ε)}
    {t : Transition σ ε} (ht : t ∈ chain source cases) :
    t.source = source ∧ ∃ case ∈ cases, t.condition = case.condition := by
  obtain ⟨case, hcase, rfl⟩ := List.mem_map.mp ht
  exact ⟨rfl, case, hcase, rfl⟩

theorem exists_case_of_mem_chainElse {source : String} {earlier : List (Case σ ε)}
    {last : Case σ ε} {other : String} {t : Transition σ ε}
    (ht : t ∈ chainElse source earlier last other) :
    t.source = source ∧ ∃ case ∈ earlier ++ [last], t.condition = case.condition := by
  rcases List.mem_append.mp ht with ht | ht
  · exact exists_case_of_mem_chain ht
  · obtain rfl := List.mem_singleton.mp ht
    exact ⟨rfl, last, List.mem_append_right _ List.mem_cons_self, rfl⟩

theorem map_target_chain (source : String) (cases : List (Case σ ε)) :
    (chain source cases).map target = cases.map Case.target := by
  rw [chain, List.map_map]
  rfl

theorem map_target_chainElse (source : String) (earlier : List (Case σ ε)) (last : Case σ ε)
    (other : String) :
    (chainElse source earlier last other).map target =
      (earlier ++ [last]).map Case.target ++ [other] := by
  rw [chainElse, List.map_append, map_target_chain]
  rfl

end Transition
end Open

/-! ## Steps -/

namespace Session

variable {k : Handler σ ε} {now : Instant} {event : Option ε} {s : Session σ ε}
  {source other : String} {cases earlier : List (Case σ ε)} {last : Case σ ε}

/-- The step is made to the target, in which the machine then stands. -/
def MovesTo (k : Handler σ ε) (now : Instant) (event : Option ε) (s : Session σ ε)
    (target : String) : Prop :=
  ∃ deferred s', s.step k now event = (.ok (.moved s.machine.state.name target deferred), s') ∧
    s.machine.chart.state? target = some s'.machine.state

/-- The handler knows all of the conditions. -/
def Knows (k : Handler σ ε) (event : Option ε) (s : Session σ ε) (cases : List (Case σ ε)) :
    Prop :=
  ∀ case ∈ cases, case.condition.value k event s.memory ≠ none

theorem Knows.unknown?_eq_none (hknown : s.Knows k event cases)
    (hcases : ∀ t ∈ s.machine.possible, ∃ case ∈ cases, t.condition = case.condition) :
    s.unknown? k event = none := by
  rw [unknown?, List.findSome?_eq_none_iff]
  intro t ht
  obtain ⟨case, hcase, hcondition⟩ := hcases t ht
  obtain ⟨b, hb⟩ := Option.ne_none_iff_exists'.mp (hknown case hcase)
  exact Transition.unknown?_eq_none hcondition hb

/-- A step goes by the last condition of a chain with another way out, and only as long as no
other holds.  Every other that holds is one more way in its place in the chain. -/
structure GoesByLast (k : Handler σ ε) (now : Instant) (event : Option ε) (s : Session σ ε)
    (earlier : List (Case σ ε)) (last : Case σ ε) (other : String) : Prop where
  survey : ∃ found, k.survey event s.memory s.machine.possible = .ok found ∧
    found.length = 1 + earlier.countP (Case.holds k event s.memory) ∧
    found.map Transition.target =
      (earlier.filter (Case.holds k event s.memory)).map Case.target ++
        [last.leadsTo k event s.memory other]
  moves : earlier.countP (Case.holds k event s.memory) = 0 →
    s.MovesTo k now event (last.leadsTo k event s.memory other)
  refuses : 0 < earlier.countP (Case.holds k event s.memory) →
    s.step k now event =
      (.error (.ambiguous s.machine.state.name
        ((earlier.filter (Case.holds k event s.memory)).map Case.target ++
          [last.leadsTo k event s.memory other])),
        s.told k event)
  spares : ∀ case ∈ earlier, ∀ deferred,
    (s.step k now event).1 ≠ .ok (.moved s.machine.state.name case.target deferred)

theorem survey_of_known (hknown : s.unknown? k event = none) :
    k.survey event s.memory s.machine.possible = .ok (s.opened k event) := by
  rw [unknown?] at hknown
  rw [Handler.survey_eq, hknown]
  rfl

theorem exists_opened_of_chainElse
    (hpossible : s.machine.possible = Transition.chainElse source earlier last other)
    (hlast : last.condition.value k event s.memory ≠ none) :
    ∃ t, t.source = source ∧ t.target = last.leadsTo k event s.memory other ∧
      s.opened k event =
        Transition.chain source (earlier.filter (Case.holds k event s.memory)) ++ [t] := by
  rw [opened, hpossible, Transition.filter_isOpen_chainElse source earlier hlast other]
  refine ⟨_, ?_, ?_, rfl⟩
  · cases last.holds k event s.memory <;> rfl
  · unfold Case.leadsTo
    cases last.holds k event s.memory <;> rfl

theorem goesByLast_of_chainElse (hc : s.machine.chart.WellFormed)
    (hplace : s.machine.state.name = source)
    (hpossible : s.machine.possible = Transition.chainElse source earlier last other)
    (hdistinct : ((earlier ++ [last]).map Case.target ++ [other]).Nodup)
    (hknown : s.Knows k event (earlier ++ [last])) (now : Instant) :
    s.GoesByLast k now event earlier last other := by
  subst hplace
  have hnone : s.unknown? k event = none := hknown.unknown?_eq_none fun t ht =>
    (Transition.exists_case_of_mem_chainElse (hpossible ▸ ht)).2
  obtain ⟨t, hsource, htarget, hopen⟩ :=
    exists_opened_of_chainElse hpossible (hknown last (List.mem_append_right _ List.mem_cons_self))
  have hlength : (s.opened k event).length =
      1 + earlier.countP (Case.holds k event s.memory) := by
    rw [hopen, List.length_append, Transition.chain, List.length_map, List.countP_eq_length_filter,
      List.length_singleton, Nat.add_comm]
  have htargets : (s.opened k event).map Transition.target =
      (earlier.filter (Case.holds k event s.memory)).map Case.target ++
        [last.leadsTo k event s.memory other] := by
    rw [hopen, List.map_append, Transition.map_target_chain, List.map_singleton, htarget]
  constructor
  case survey => exact ⟨_, survey_of_known hnone, hlength, htargets⟩
  case moves =>
    intro hzero
    rw [List.countP_eq_length_filter, List.length_eq_zero_iff] at hzero
    rw [hzero, Transition.chain, List.map_nil, List.nil_append] at hopen
    have hstep := exists_step_of_opened hc hnone hopen now
    rwa [hsource, htarget] at hstep
  case refuses =>
    intro hpos
    cases hseveral : s.opened k event with
    | nil =>
      rw [hseveral, List.length_nil] at hlength
      omega
    | cons t rest =>
      cases rest with
      | nil =>
        rw [hseveral, List.length_singleton] at hlength
        omega
      | cons u ts =>
        have hstep := step_of_stepped (.ambiguous hnone hseveral : Stepped k now event s _ _)
        rwa [← hseveral, htargets] at hstep
  case spares =>
    intro case hcase deferred hmoved
    obtain ⟨u, hsingle, -, hu, -⟩ := exists_opened_of_moved (Prod.ext hmoved rfl)
    -- the only open transition is the one that the last condition decides on
    have hfinal : case.target = last.leadsTo k event s.memory other := by
      rw [hsingle, List.map_singleton, hu] at htargets
      have hlast := congrArg List.getLast? htargets
      rw [List.getLast?_singleton, List.getLast?_concat] at hlast
      exact Option.some.inj hlast
    rw [List.map_append, List.append_assoc] at hdistinct
    apply List.disjoint_of_nodup_append hdistinct (List.mem_map_of_mem hcase)
    rw [hfinal, Case.leadsTo]
    split
    · exact List.mem_cons_self
    · exact List.mem_cons_of_mem _ List.mem_cons_self

theorem movesTo_iff_of_chain (hc : s.machine.chart.WellFormed)
    (hplace : s.machine.state.name = source)
    (hpossible : s.machine.possible = Transition.chain source cases)
    (hdistinct : (cases.map Case.target).Nodup) (hknown : s.Knows k event cases)
    (now : Instant) {case : Case σ ε} (hcase : case ∈ cases) :
    s.MovesTo k now event case.target ↔
      cases.filter (Case.holds k event s.memory) = [case] := by
  subst hplace
  have hnone : s.unknown? k event = none := hknown.unknown?_eq_none fun t ht =>
    (Transition.exists_case_of_mem_chain (hpossible ▸ ht)).2
  have hopen : s.opened k event = Transition.chain s.machine.state.name
      (cases.filter (Case.holds k event s.memory)) := by
    rw [opened, hpossible, Transition.filter_isOpen_chain]
  constructor
  · rintro ⟨deferred, s', hstep, -⟩
    obtain ⟨t, hsingle, -, ht, -⟩ := exists_opened_of_moved hstep
    rw [hsingle] at hopen
    obtain ⟨only, honly, rfl⟩ := List.map_eq_singleton_iff.mp hopen.symm
    have hmem : only ∈ cases.filter (Case.holds k event s.memory) :=
      honly ▸ List.mem_cons_self
    rw [honly, List.inj_on_of_nodup_map hdistinct (List.mem_filter.mp hmem).1 hcase ht]
  · intro honly
    rw [honly] at hopen
    exact exists_step_of_opened hc hnone hopen now

end Session

/-! ## Main statement -/

/-- A chain builds a transition for each case, in order, and one for when the last condition
fails if there is another way out.  Let it be defined between declared states, from one from
which nothing has been declared before, to distinct targets.  As long as nothing else is
declared from there, a step from there whose handler knows the conditions does not go by the
order of the cases.

With another way out, one more transition is open than earlier cases hold.  If none of these
holds, the step is made, to the last target if the last condition holds and else the other way.
If some hold, the step is refused for having several ways, which it names in the order of the
chain.  So no earlier target is ever come into.  Without another way out, a case is followed
just if its condition is the only one that holds. -/
theorem chain_steps (source : String) (earlier : List (Case σ ε)) (last : Case σ ε) :
    let cases := earlier ++ [last]
    let targets := cases.map Case.target
    (∀ other, ∃ o,
      Id.run ((Handle.root.chainElse source cases other).runOn Outline.root) = (.ok (), o) ∧
      o.transitionsFrom Handle.root = Transition.chainElse source earlier last other) ∧
    (∃ h o, Id.run ((Handle.root.chain source cases).runOn Outline.root) = (.ok h, o) ∧
      o.transitionsFrom Handle.root = Transition.chain source cases) ∧
    ∀ before : List (Edit σ ε), source ∉ (Blueprint.empty.log before).sources →
      let b := before.foldl Blueprint.edit .empty
      (∀ other, (∀ name ∈ source :: targets ++ [other], (b.chart.state? name).isSome = true) →
        (targets ++ [other]).Nodup →
        ∃ b', b.tryEdit (.define fun root => root.chainElse source cases other) = .ok b' ∧
          b'.AlwaysAt source fun s => ∀ k event, s.Knows k event cases → ∀ now,
            s.GoesByLast k now event earlier last other) ∧
      ((∀ name ∈ source :: targets, (b.chart.state? name).isSome = true) → targets.Nodup →
        ∃ b', b.tryEdit (.define fun root => discard (root.chain source cases)) = .ok b' ∧
          b'.AlwaysAt source fun s => ∀ k event, s.Knows k event cases → ∀ now, ∀ case ∈ cases,
            s.MovesTo k now event case.target ↔
              cases.filter (Case.holds k event s.memory) = [case]) := by
  intro cases targets
  have hbuilt := Handle.run_chain source cases
  have hadded := Handle.transitionsFrom_branches source cases []
  rw [List.append_nil, List.filterMap_nil, List.append_nil] at hadded
  refine ⟨Handle.run_chainElse source earlier last, ⟨_, _, hbuilt, hadded⟩, ?_⟩
  intro before hfresh b
  constructor
  · intro other hdeclared hdistinct
    obtain ⟨o, hrun, hchain⟩ := Handle.run_chainElse source earlier last other
    have hends : (Transition.chainElse source earlier last other).map Transition.target =
        targets ++ [other] := Transition.map_target_chainElse source earlier last other
    obtain ⟨b', hdefined, halways⟩ := Blueprint.exists_alwaysAt_of_define hfresh
      (fun root => root.chainElse source cases other) hrun hchain
      (fun t ht => (Transition.exists_case_of_mem_chainElse ht).1)
      (by rwa [hends, ← List.cons_append]) (by rwa [hends])
    refine ⟨b', hdefined, ?_⟩
    intro after hafter s hchart hplace k event hknown now
    obtain ⟨hwell, hpossible⟩ := halways after hafter s hchart hplace
    exact Session.goesByLast_of_chainElse hwell hplace hpossible hdistinct hknown now
  · intro hdeclared hdistinct
    have hends : (Transition.chain source cases).map Transition.target = targets :=
      Transition.map_target_chain source cases
    obtain ⟨b', hdefined, halways⟩ := Blueprint.exists_alwaysAt_of_define hfresh
      (fun root => discard (root.chain source cases)) (BuildT.run_bind_of_run hbuilt) hadded
      (fun t ht => (Transition.exists_case_of_mem_chain ht).1) (by rwa [hends]) (by rwa [hends])
    refine ⟨b', hdefined, ?_⟩
    intro after hafter s hchart hplace k event hknown now case hcase
    obtain ⟨hwell, hpossible⟩ := halways after hafter s hchart hplace
    exact Session.movesTo_iff_of_chain hwell hplace hpossible hdistinct hknown now hcase

/-- A handler that remembers which conditions hold. -/
def Handler.informed : Handler (List String) String where
  condition := fun name _ facts => some (facts.contains name)

/-- The street before anything leads from there. -/
def Blueprint.avenue : List (Edit (List String) String) :=
  [.declareState "street" { initial := true }, .declareState "hall" {},
    .declareState "garden" {}, .declareState "room" {}]

/-- In the street, on a chart that nothing was added to, and with some conditions that hold. -/
def Session.passerby (b : Blueprint (List String) String) (facts : List String) :
    Session (List String) String :=
  { machine :=
      { chart := b.chart
        state := { name := "street", flags := { initial := true } }
        latest := none
        history := .empty }
    memory := facts }

theorem chain_steps_street :
    let hall : Case (List String) String := { condition := .named "open", target := "hall" }
    let garden : Case (List String) String := { condition := .named "dry", target := "garden" }
    let b := Blueprint.avenue.foldl Blueprint.edit .empty
    (∃ b', b.tryEdit (.define fun root => root.chainElse "street" [hall, garden] "room") =
        .ok b' ∧
      (Session.passerby b' []).MovesTo .informed .noon none "room" ∧
      (Session.passerby b' ["dry"]).MovesTo .informed .noon none "garden" ∧
      ((Session.passerby b' ["open"]).step .informed .noon none).1 =
        .error (.ambiguous "street" ["hall", "room"]) ∧
      ((Session.passerby b' ["open", "dry"]).step .informed .noon none).1 =
        .error (.ambiguous "street" ["hall", "garden"])) ∧
    ∃ b', b.tryEdit (.define fun root => discard (root.chain "street" [hall, garden])) = .ok b' ∧
      (Session.passerby b' ["open"]).MovesTo .informed .noon none "hall" ∧
      ¬ (Session.passerby b' ["open", "dry"]).MovesTo .informed .noon none "hall" := by
  intro hall garden b
  obtain ⟨-, -, hsteps⟩ := chain_steps "street" [hall] garden
  obtain ⟨helse, hchain⟩ := hsteps Blueprint.avenue (by decide)
  have hknows (b' : Blueprint (List String) String) (facts : List String) :
      (Session.passerby b' facts).Knows .informed none [hall, garden] := by
    simp [Session.Knows, hall, garden, Condition.value, Handler.informed]
  constructor
  · obtain ⟨b', hdefined, halways⟩ := helse "room" (by decide) (by decide)
    have hgoes (facts : List String) := halways [] List.not_mem_nil (.passerby b' facts) rfl rfl
      .informed none (hknows b' facts) .noon
    refine ⟨b', hdefined, (hgoes []).moves rfl, (hgoes ["dry"]).moves rfl, ?_, ?_⟩
    · exact congrArg Prod.fst ((hgoes ["open"]).refuses Nat.zero_lt_one)
    · exact congrArg Prod.fst ((hgoes ["open", "dry"]).refuses Nat.zero_lt_one)
  · obtain ⟨b', hdefined, halways⟩ := hchain (by decide) (by decide)
    have hmoves (facts : List String) := halways [] List.not_mem_nil (.passerby b' facts) rfl rfl
      .informed none (hknows b' facts) .noon hall List.mem_cons_self
    refine ⟨b', hdefined, (hmoves ["open"]).mpr rfl, ?_⟩
    intro hmoved
    have honly := (hmoves ["open", "dry"]).mp hmoved
    have hboth : [hall, garden].length = [hall].length := congrArg List.length honly
    cases hboth

end Turnstile
