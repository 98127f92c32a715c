import Turnstile.Proofs.Chart.Log

/-!
# The states of a chart replay their declarations

Whatever is done to a blueprint, its states can be read off the edits that declare states,
and off when all states were made transient: each state stands in the place of its first
declaration and has the flags of its last one (`Blueprint.states_replay_edits`).  Nothing
else that an edit does has a part in the states, whether the edit is refused or not.

A derived blueprint starts with all that its ancestor has, so its edits begin with those of
the ancestor up to the derivation.
-/

namespace Turnstile

variable {σ ε : Type}

/-! ## Declarations -/

namespace Edit

/-- The name of the state that the edit declares, if it declares one. -/
def declared? : Edit σ ε → Option String
  | .declareState name _ => some name
  | _ => none

/-- The names of the states that are declared, as often as they are. -/
def declaredNames (edits : List (Edit σ ε)) : List String := edits.filterMap declared?

/-- The last declaration of the state's name among the edits gives the state its flags.  The
state is transient also when all states had been made transient before that declaration. -/
def LastDeclared (edits : List (Edit σ ε)) (s : State) : Prop :=
  ∃ before flags after,
    edits = before ++ .declareState s.name flags :: after ∧ s.name ∉ declaredNames after ∧
      s.isInitial = flags.initial ∧ s.isFinal = flags.final ∧
      (s.isTransient = true ↔ flags.transient = true ∨ .makeAllTransient ∈ before)

theorem declaredNames_append (before after : List (Edit σ ε)) :
    declaredNames (before ++ after) = declaredNames before ++ declaredNames after :=
  List.filterMap_append

theorem declaredNames_cons (e : Edit σ ε) (edits : List (Edit σ ε)) :
    declaredNames (e :: edits) = e.declared?.toList ++ declaredNames edits := by
  rw [declaredNames, List.filterMap_cons]
  cases e.declared? <;> rfl

theorem eq_of_declared?_eq_some {e : Edit σ ε} {name : String} (he : e.declared? = some name) :
    ∃ flags, e = .declareState name flags := by
  cases e with
  | declareState other flags =>
    obtain rfl := Option.some.inj he
    exact ⟨flags, rfl⟩
  | _ => cases he

/-- Of the declarations of a name one is the last. -/
theorem exists_last_of_mem_declaredNames {edits : List (Edit σ ε)} {name : String}
    (hname : name ∈ declaredNames edits) :
    ∃ before flags after,
      edits = before ++ .declareState name flags :: after ∧ name ∉ declaredNames after := by
  induction edits with
  | nil => cases hname
  | cons e edits ih =>
    by_cases hlater : name ∈ declaredNames edits
    · obtain ⟨before, flags, after, rfl, hafter⟩ := ih hlater
      exact ⟨e :: before, flags, after, rfl, hafter⟩
    · rw [declaredNames_cons, List.mem_append, Option.mem_toList] at hname
      obtain ⟨flags, rfl⟩ := eq_of_declared?_eq_some (hname.resolve_right hlater)
      exact ⟨[], flags, edits, rfl, hlater⟩

end Edit

/-! ## One edit -/

theorem Flags.eq_ite_raise_transient_iff {fs flags : Flags} {raised : Bool} :
    fs = (if raised then flags.raise .transient else flags) ↔
      fs.initial = flags.initial ∧ fs.final = flags.final ∧
        (fs.transient = true ↔ flags.transient = true ∨ raised = true) := by
  obtain ⟨initial, final, transient⟩ := fs
  obtain ⟨initial', final', transient'⟩ := flags
  cases raised <;> cases transient <;> cases transient' <;> simp [raise]

namespace Chart

theorem eq_of_addOutline {c c' : Chart σ ε} {built : Except BranchError Unit × Outline σ ε}
    (h : c.addOutline built = .ok c') : ∃ table, c' = { c with table } := by
  obtain ⟨result, o⟩ := built
  cases result with
  | error e => cases h
  | ok u =>
    obtain ⟨-, rfl⟩ := eq_of_checked h
    exact ⟨_, rfl⟩

theorem state?_eq_none_iff {c : Chart σ ε} {name : String} :
    c.state? name = none ↔ name ∉ c.flags.keys := by
  rw [state?, Option.map_eq_none_iff, Ledger.get?_eq_none_iff]

theorem state?_declareState (c : Chart σ ε) (name other : String) (flags : Flags) :
    (c.declareState name flags).state? other =
      if other = name then
        some { name, flags := if c.allTransient then flags.raise .transient else flags }
      else c.state? other := by
  rw [state?, declareState, Ledger.insert, Ledger.get?_alter]
  by_cases hother : other = name
  · subst hother
    rw [if_pos rfl, if_pos rfl, Option.map_some]
  · rw [if_neg hother, if_neg hother]
    rfl

end Chart

namespace Blueprint

/-- What an edit that is not refused does to the states, and to those still to come. -/
theorem flags_of_tryEdit {b b' : Blueprint σ ε} {e : Edit σ ε} (he : b.tryEdit e = .ok b') :
    (e.declared? = none → b'.chart.flags = b.chart.flags) ∧
      (b'.chart.allTransient = true ↔ b.chart.allTransient = true ∨ e = .makeAllTransient) := by
  cases e with
  | declareState name flags | registerHook hook | setFactory factory | inherit =>
    obtain rfl := Except.ok.inj he
    exact ⟨by simp [Edit.declared?, Chart.registerHook, setFactory, inherit],
      by simp [Chart.declareState, Chart.registerHook, setFactory, inherit]⟩
  | makeAllTransient =>
    obtain rfl := Except.ok.inj he
    exact ⟨fun _ => rfl, by simp [Chart.makeAllTransient]⟩
  | declareTransition t | disable source target | addTransitions ts =>
    obtain ⟨chart, hchart, rfl⟩ := exists_chart_of_map he
    obtain ⟨-, rfl⟩ := Chart.eq_of_checked hchart
    exact ⟨fun _ => rfl, by simp⟩
  | define body =>
    obtain ⟨chart, hchart, rfl⟩ := exists_chart_of_map he
    obtain ⟨table, rfl⟩ := Chart.eq_of_addOutline hchart
    exact ⟨fun _ => rfl, by simp⟩

theorem flags_edit_of_declared?_eq_none (b : Blueprint σ ε) {e : Edit σ ε}
    (he : e.declared? = none) : (b.edit e).chart.flags = b.chart.flags := by
  rw [edit]
  split
  · next b' htry => exact (flags_of_tryEdit htry).1 he
  · rfl

theorem allTransient_edit (b : Blueprint σ ε) (e : Edit σ ε) :
    (b.edit e).chart.allTransient = true ↔
      b.chart.allTransient = true ∨ e = .makeAllTransient := by
  rw [edit]
  split
  · next b' htry => exact (flags_of_tryEdit htry).2
  · next refusal htry =>
    refine ⟨.inl, fun hor => hor.elim id ?_⟩
    rintro rfl
    cases htry

theorem state?_edit_of_ne (b : Blueprint σ ε) {e : Edit σ ε} {name : String}
    (he : e.declared? ≠ some name) : (b.edit e).chart.state? name = b.chart.state? name := by
  cases hdeclared : e.declared? with
  | none => rw [Chart.state?, flags_edit_of_declared?_eq_none b hdeclared, Chart.state?]
  | some other =>
    obtain ⟨flags, rfl⟩ := Edit.eq_of_declared?_eq_some hdeclared
    have hne : name ≠ other := fun heq => he (heq ▸ hdeclared)
    exact (b.chart.state?_declareState other name flags).trans (if_neg hne)

/-! ## Edits in a row -/

theorem state?_foldl_edit_of_notMem (b : Blueprint σ ε) {edits : List (Edit σ ε)} {name : String}
    (hname : name ∉ Edit.declaredNames edits) :
    (edits.foldl edit b).chart.state? name = b.chart.state? name := by
  induction edits generalizing b with
  | nil => rfl
  | cons e edits ih =>
    rw [Edit.declaredNames_cons, List.mem_append, Option.mem_toList, not_or] at hname
    rw [List.foldl_cons, ih (b.edit e) hname.2, state?_edit_of_ne b hname.1]

theorem allTransient_foldl_edit (b : Blueprint σ ε) (edits : List (Edit σ ε)) :
    (edits.foldl edit b).chart.allTransient = true ↔
      b.chart.allTransient = true ∨ .makeAllTransient ∈ edits := by
  induction edits generalizing b with
  | nil => simp
  | cons e edits ih =>
    rw [List.foldl_cons, ih, allTransient_edit, List.mem_cons, or_assoc, @eq_comm _ e]

/-- The names in the table of states are those that were declared, each where it was first. -/
theorem keys_foldl_edit (edits : List (Edit σ ε)) :
    (edits.foldl edit empty).chart.flags.keys = (Edit.declaredNames edits).eraseDups := by
  induction edits using List.reverseRecOn with
  | nil => rfl
  | append_singleton edits e ih =>
    rw [List.foldl_append, List.foldl_cons, List.foldl_nil, Edit.declaredNames_append,
      Edit.declaredNames_cons]
    cases hdeclared : e.declared? with
    | none =>
      rw [flags_edit_of_declared?_eq_none _ hdeclared, ih]
      exact congrArg List.eraseDups (List.append_nil _).symm
    | some name =>
      obtain ⟨flags, rfl⟩ := Edit.eq_of_declared?_eq_some hdeclared
      have hkeys := Ledger.keys_alter (edits.foldl edit empty).chart.flags name fun _ =>
        if (edits.foldl edit empty).chart.allTransient then flags.raise .transient else flags
      rw [ih] at hkeys
      exact hkeys.trans (Log.eraseDups_concat _ _).symm

theorem state?_foldl_edit_eq_none_iff {edits : List (Edit σ ε)} {name : String} :
    (edits.foldl edit empty).chart.state? name = none ↔ name ∉ Edit.declaredNames edits := by
  rw [Chart.state?_eq_none_iff, keys_foldl_edit, List.mem_eraseDups]

theorem state?_foldl_edit_of_last (before : List (Edit σ ε)) (name : String) (flags : Flags)
    {after : List (Edit σ ε)} (hafter : name ∉ Edit.declaredNames after) :
    ((before ++ .declareState name flags :: after).foldl edit empty).chart.state? name =
      some { name, flags := if (before.foldl edit empty).chart.allTransient
        then flags.raise .transient else flags } := by
  rw [List.foldl_append, List.foldl_cons, state?_foldl_edit_of_notMem _ hafter]
  exact (Chart.state?_declareState _ name name flags).trans (if_pos rfl)

/-- The state that goes by a name is the one that was declared last. -/
theorem state?_foldl_edit_eq_some_iff {edits : List (Edit σ ε)} {s : State} :
    (edits.foldl edit empty).chart.state? s.name = some s ↔ Edit.LastDeclared edits s := by
  have hmade : ∀ before : List (Edit σ ε),
      (before.foldl edit empty).chart.allTransient = true ↔ .makeAllTransient ∈ before := by
    intro before
    exact (allTransient_foldl_edit empty before).trans (or_iff_right Bool.false_ne_true)
  constructor
  · intro hs
    have hname : s.name ∈ Edit.declaredNames edits := by
      by_contra hname
      rw [state?_foldl_edit_eq_none_iff.mpr hname] at hs
      cases hs
    obtain ⟨before, flags, after, rfl, hafter⟩ := Edit.exists_last_of_mem_declaredNames hname
    rw [state?_foldl_edit_of_last before s.name flags hafter] at hs
    have hflags := Flags.eq_ite_raise_transient_iff.mp
      (congrArg State.flags (Option.some.inj hs)).symm
    rw [hmade] at hflags
    exact ⟨before, flags, after, rfl, hafter, hflags⟩
  · rintro ⟨before, flags, after, rfl, hafter, hflags⟩
    rw [← hmade] at hflags
    have hs := Flags.eq_ite_raise_transient_iff.mpr hflags
    rw [state?_foldl_edit_of_last before s.name flags hafter, ← hs]

end Blueprint

/-- A hall and then, in a derived blueprint, a loft above it.  All states are made transient
in between, and the hall is declared anew at the end.  The way to the loft is refused, since
there is no loft yet. -/
def Edit.annex : List (Edit Bool String) :=
  [.declareState "hall" { initial := true }, .makeAllTransient, .inherit,
    .declareTransition { source := "hall", target := "loft" },
    .declareState "loft" { initial := true }, .declareState "hall" { final := true }]

namespace Blueprint

/-! ## Main statement -/

/-- Whatever the edits are, the chart has one state for each name that they declare, in the
order of the first declarations, and each state is as its last declaration has left it.  A
state is looked up as it is listed, and none is found just if the name was never declared.
An edit that declares no state leaves all states as they are. -/
theorem states_replay_edits (edits : List (Edit σ ε)) :
    let b := edits.foldl edit empty
    b.chart.states.map State.name = (Edit.declaredNames edits).eraseDups ∧
    (b.chart.states.map State.name).Nodup ∧
    (∀ s, s ∈ b.chart.states ↔ Edit.LastDeclared edits s) ∧
    (∀ name s, b.chart.state? name = some s ↔ s ∈ b.chart.states ∧ s.name = name) ∧
    (∀ name, b.chart.state? name = none ↔ name ∉ Edit.declaredNames edits) ∧
    ∀ e : Edit σ ε, e.declared? = none → (b.edit e).chart.states = b.chart.states := by
  intro b
  have hchart : b.chart.WellFormed := Reachable.wellFormed ⟨edits, rfl⟩
  have hlookup : ∀ name s, b.chart.state? name = some s ↔ s ∈ b.chart.states ∧ s.name = name := by
    refine fun name s => ⟨fun hs => ⟨Chart.mem_states_of_state? hs, Chart.name_of_state? hs⟩, ?_⟩
    rintro ⟨hs, rfl⟩
    exact hchart.state?_of_mem hs
  refine ⟨?_, hchart.names, fun s => ?_, hlookup, fun name => state?_foldl_edit_eq_none_iff,
    fun e he => ?_⟩
  · rw [Chart.map_name_states]
    exact keys_foldl_edit edits
  · rw [← state?_foldl_edit_eq_some_iff]
    exact ((hlookup s.name s).trans (and_iff_left rfl)).symm
  · rw [Chart.states, flags_edit_of_declared?_eq_none b he, Chart.states]

theorem annex_states_replay_edits :
    let b := Edit.annex.foldl edit empty
    let hall : State := { name := "hall", flags := { final := true, transient := true } }
    b.chart.states.map State.name = ["hall", "loft"] ∧
    Edit.LastDeclared Edit.annex hall ∧ hall ∈ b.chart.states ∧
    b.chart.state? "hall" = some hall ∧ b.chart.state? "garden" = none ∧
    (Edit.inherit : Edit Bool String).declared? = none ∧
    (b.edit .inherit).chart.states = b.chart.states := by
  intro b hall
  obtain ⟨hnames, -, hlisted, hlookup, hnone, hkept⟩ := states_replay_edits Edit.annex
  have hforced : Edit.makeAllTransient ∈ Edit.annex.take 5 := .tail _ (.head _)
  have hlast : Edit.LastDeclared Edit.annex hall :=
    ⟨Edit.annex.take 5, { final := true }, [], rfl, List.not_mem_nil, rfl, rfl,
      iff_of_true rfl (.inr hforced)⟩
  have hhall := (hlisted hall).mpr hlast
  exact ⟨hnames, hlast, hhall, (hlookup _ _).mpr ⟨hhall, rfl⟩, (hnone _).mpr (by decide), rfl,
    hkept _ rfl⟩

end Blueprint
end Turnstile
