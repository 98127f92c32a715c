import Turnstile.Chart.Declare

/-!
# Well-formed charts

A chart is well formed when its states have distinct names, when its table files
every transition under the transition's own source and target, with no source and no
target of a source listed twice, and when the ends of all transitions are declared.
Every declaration keeps a chart well formed.  The table is the part that takes work:
`Table.forall_alter` says what one write may do to what is filed, and a declaration
of transitions is a row of such writes.
-/

namespace Turnstile

namespace Ledger

variable {α : Type}

theorem get?_of_mem_entries {l : Ledger α} (hl : l.keys.Nodup) {name : String} {value : α}
    (h : (name, value) ∈ l.entries) : l.get? name = some value := by
  obtain ⟨before, after, he⟩ := List.append_of_mem h
  refine List.lookup_eq_some_iff.mpr ⟨before, after, he, fun e hb => ?_⟩
  have hk : l.keys = before.map Prod.fst ++ name :: after.map Prod.fst := by
    simp [keys, he]
  rw [hk] at hl
  have hne := (List.nodup_append.mp hl).2.2 e.1 (List.mem_map_of_mem hb) name
    List.mem_cons_self
  simpa [bne_iff_ne] using Ne.symm hne

theorem get?_eq_none_iff {l : Ledger α} {name : String} :
    l.get? name = none ↔ name ∉ l.keys := by
  rw [get?, List.lookup_eq_none_iff, keys, List.mem_map]
  simp only [bne_iff_ne, not_exists, not_and]
  exact forall_congr' fun e => forall_congr' fun _ => ne_comm

/-- An entry found after a write is an old one, or the one that was written. -/
theorem mem_entries_alter {l : Ledger α} {name : String} {f : Option α → α}
    {e : String × α} (he : e ∈ (l.alter name f).entries) :
    e ∈ l.entries ∨ ∃ old, e = (name, f old) ∧ ∀ v ∈ old, (name, v) ∈ l.entries := by
  obtain ⟨es⟩ := l
  simp only [alter] at he ⊢
  induction es with
  | nil =>
    rw [alterIn, List.mem_singleton] at he
    exact .inr ⟨none, he, by simp⟩
  | cons first rest ih =>
    obtain ⟨key, value⟩ := first
    by_cases hk : key = name
    · subst hk
      rw [alterIn, if_pos rfl, List.mem_cons] at he
      rcases he with rfl | he
      · refine .inr ⟨some value, rfl, fun v hv => ?_⟩
        obtain rfl : value = v := Option.some.inj hv
        exact List.mem_cons_self
      · exact .inl (List.mem_cons_of_mem _ he)
    · rw [alterIn, if_neg hk, List.mem_cons] at he
      rcases he with rfl | he
      · exact .inl List.mem_cons_self
      · rcases ih he with he | ⟨old, rfl, ho⟩
        · exact .inl (List.mem_cons_of_mem _ he)
        · exact .inr ⟨old, rfl, fun v hv => List.mem_cons_of_mem _ (ho v hv)⟩

end Ledger

variable {σ ε : Type}

namespace Table

/-- Everything that is filed under a source and a target satisfies `P` there. -/
def Forall (P : String → String → Transition σ ε → Prop) (table : Table σ ε) : Prop :=
  ∀ row ∈ table.entries, ∀ cell ∈ row.2.entries, ∀ t ∈ cell.2, P row.1 cell.1 t

/-- No source is listed twice, and no target is listed twice under one source. -/
structure Distinct (table : Table σ ε) : Prop where
  sources : table.keys.Nodup
  targets : ∀ row ∈ table.entries, row.2.keys.Nodup

theorem mem_ofRow_iff {row : Ledger (List (Transition σ ε))} {t : Transition σ ε} :
    t ∈ ofRow row ↔ ∃ cell ∈ row.entries, t ∈ cell.2 := by
  rw [ofRow, Ledger.values, ← List.flatMap_def, List.mem_flatMap]

theorem mem_all_iff {table : Table σ ε} {t : Transition σ ε} :
    t ∈ table.all ↔ ∃ row ∈ table.entries, ∃ cell ∈ row.2.entries, t ∈ cell.2 := by
  rw [all, Ledger.values, List.flatMap_map, List.mem_flatMap]
  exact exists_congr fun row => and_congr_right fun _ => mem_ofRow_iff

theorem mem_leaving {table : Table σ ε} {source : String} {t : Transition σ ε}
    (h : t ∈ table.leaving source) :
    ∃ row ∈ table.entries, row.1 = source ∧ ∃ cell ∈ row.2.entries, t ∈ cell.2 := by
  unfold leaving at h
  split at h
  · next row hrow =>
    exact ⟨(source, row), Ledger.mem_entries_of_get? hrow, rfl, mem_ofRow_iff.mp h⟩
  · simp at h

theorem forall_alter {P : String → String → Transition σ ε → Prop} {table : Table σ ε}
    (hP : table.Forall P) {source target : String}
    {f : List (Transition σ ε) → List (Transition σ ε)}
    (hf : ∀ ts, (∀ t ∈ ts, P source target t) → ∀ t ∈ f ts, P source target t) :
    (table.alter source target f).Forall P := by
  intro row hrow cell hcell t ht
  rcases Ledger.mem_entries_alter hrow with hrow | ⟨oldRow, rfl, hold⟩
  · exact hP row hrow cell hcell t ht
  -- the row was written, so it remains to see which of its cells was
  have hcells : ∀ c ∈ (oldRow.getD Ledger.empty).entries, ∀ t ∈ c.2, P source c.1 t := by
    cases oldRow with
    | none => intro c hc; simp [Ledger.empty] at hc
    | some old => exact hP (source, old) (hold old rfl)
  rcases Ledger.mem_entries_alter hcell with hcell | ⟨oldCell, rfl, hold⟩
  · exact hcells cell hcell t ht
  · refine hf _ (fun u hu => ?_) t ht
    cases oldCell with
    | none => simp at hu
    | some old => exact hcells (target, old) (hold old rfl) u hu

theorem Distinct.alter {table : Table σ ε} (hd : table.Distinct) (source target : String)
    (f : List (Transition σ ε) → List (Transition σ ε)) :
    (table.alter source target f).Distinct := by
  refine ⟨Ledger.nodup_keys_alter hd.sources _ _, fun row hrow => ?_⟩
  rcases Ledger.mem_entries_alter hrow with hrow | ⟨oldRow, rfl, hold⟩
  · exact hd.targets row hrow
  · apply Ledger.nodup_keys_alter
    cases oldRow with
    | none => exact List.nodup_nil
    | some old => exact hd.targets (source, old) (hold old rfl)

end Table

namespace Chart

/-- What holds of every chart that declarations lead to. -/
structure WellFormed (c : Chart σ ε) : Prop where
  names : (c.states.map State.name).Nodup
  distinct : c.table.Distinct
  filed : c.table.Forall fun source target t => t.source = source ∧ t.target = target
  declared : ∀ t ∈ c.transitions, (c.state? t.source).isSome ∧ (c.state? t.target).isSome

theorem map_name_states (c : Chart σ ε) : c.states.map State.name = c.flags.keys := by
  rw [states, List.map_map]
  rfl

theorem mem_states_of_state? {c : Chart σ ε} {name : String} {s : State}
    (h : c.state? name = some s) : s ∈ c.states := by
  obtain ⟨flags, hf, rfl⟩ := Option.map_eq_some_iff.mp h
  exact List.mem_map.mpr ⟨_, Ledger.mem_entries_of_get? hf, rfl⟩

theorem isSome_state?_declareState {c : Chart σ ε} {name : String}
    (h : (c.state? name).isSome) (declared : String) (flags : Flags) :
    ((c.declareState declared flags).state? name).isSome := by
  simp only [state?, Option.isSome_map] at h
  simp only [state?, declareState, Ledger.insert, Ledger.get?_alter, Option.isSome_map]
  split
  · rfl
  · exact h

theorem checkAll_eq_ok_iff {c : Chart σ ε} {ts : List (Transition σ ε)} :
    c.checkAll ts = .ok () ↔
      ∀ t ∈ ts, (c.state? t.source).isSome ∧ (c.state? t.target).isSome := by
  induction ts with
  | nil => simp [checkAll]
  | cons t ts ih =>
    rw [List.forall_mem_cons, ← ih, ← checkEnds_eq_ok_iff, checkAll]
    cases c.checkEnds t.source t.target <;> simp

theorem eq_of_checked {check : Except DeclareError Unit} {c c' : Chart σ ε}
    (h : (match check with
      | .error e => Except.error e
      | .ok () => Except.ok c) = .ok c') : check = .ok () ∧ c = c' := by
  cases check with
  | error e => cases h
  | ok u => exact ⟨rfl, Except.ok.inj h⟩

namespace WellFormed

variable {c : Chart σ ε}

theorem state?_of_mem (hc : c.WellFormed) {s : State} (h : s ∈ c.states) :
    c.state? s.name = some s := by
  obtain ⟨e, he, rfl⟩ := List.mem_map.mp h
  have hk : c.flags.keys.Nodup := by
    rw [← map_name_states]
    exact hc.names
  rw [state?, Ledger.get?_of_mem_entries hk he]
  rfl

/-- What leaves a state is a transition of the chart, and the state is its source. -/
theorem of_mem_leaving (hc : c.WellFormed) {name : String} {t : Transition σ ε}
    (h : t ∈ c.leaving name) : t ∈ c.transitions ∧ t.source = name := by
  obtain ⟨row, hrow, rfl, cell, hcell, ht⟩ := Table.mem_leaving h
  exact ⟨Table.mem_all_iff.mpr ⟨row, hrow, cell, hcell, ht⟩, (hc.filed row hrow cell hcell t ht).1⟩

theorem isSome_target_of_mem_leaving (hc : c.WellFormed) {name : String} {t : Transition σ ε}
    (h : t ∈ c.leaving name) : (c.state? t.target).isSome :=
  (hc.declared t (hc.of_mem_leaving h).1).2

theorem empty : (Chart.empty : Chart σ ε).WellFormed where
  names := List.nodup_nil
  distinct := ⟨List.nodup_nil, by simp [Chart.empty, Ledger.empty]⟩
  filed := by simp [Table.Forall, Chart.empty, Ledger.empty]
  declared := by simp [transitions, Table.all, Chart.empty]

theorem declareState (hc : c.WellFormed) (name : String) (flags : Flags) :
    (c.declareState name flags).WellFormed where
  names := by
    have hn := hc.names
    rw [map_name_states] at hn ⊢
    exact Ledger.nodup_keys_alter hn _ _
  distinct := hc.distinct
  filed := hc.filed
  declared := fun t ht =>
    ⟨isSome_state?_declareState (hc.declared t ht).1 _ _,
      isSome_state?_declareState (hc.declared t ht).2 _ _⟩

theorem alter (hc : c.WellFormed) {source target : String}
    {f : List (Transition σ ε) → List (Transition σ ε)}
    (hends : (c.state? source).isSome ∧ (c.state? target).isSome)
    (hf : ∀ ts, ∀ t ∈ f ts, t ∈ ts ∨ t.source = source ∧ t.target = target) :
    WellFormed { c with table := c.table.alter source target f } := by
  have hfiled := Table.forall_alter hc.filed fun ts hts t ht => (hf ts t ht).elim (hts t) id
  have hdeclared : (c.table.alter source target f).Forall fun _ _ t =>
      (c.state? t.source).isSome ∧ (c.state? t.target).isSome := by
    refine Table.forall_alter (fun row hrow cell hcell t ht => ?_) fun ts hts t ht => ?_
    · exact hc.declared t (Table.mem_all_iff.mpr ⟨row, hrow, cell, hcell, ht⟩)
    · rcases hf ts t ht with ht | ⟨rfl, rfl⟩
      · exact hts t ht
      · exact hends
  refine ⟨hc.names, hc.distinct.alter _ _ _, hfiled, fun t ht => ?_⟩
  obtain ⟨row, hrow, cell, hcell, ht⟩ := Table.mem_all_iff.mp ht
  exact hdeclared row hrow cell hcell t ht

theorem add (hc : c.WellFormed) {t : Transition σ ε}
    (hends : (c.state? t.source).isSome ∧ (c.state? t.target).isSome) :
    WellFormed { c with table := c.table.add t } := by
  refine hc.alter hends fun ts u hu => ?_
  rcases List.mem_append.mp hu with hu | hu
  · exact .inl hu
  · obtain rfl := List.mem_singleton.mp hu
    exact .inr ⟨rfl, rfl⟩

theorem addAll {ts : List (Transition σ ε)} (hc : c.WellFormed)
    (hends : ∀ t ∈ ts, (c.state? t.source).isSome ∧ (c.state? t.target).isSome) :
    WellFormed { c with table := ts.foldl Table.add c.table } := by
  induction ts generalizing c with
  | nil => exact hc
  | cons t ts ih =>
    have hfirst := hc.add (hends t List.mem_cons_self)
    exact ih hfirst fun u hu => hends u (List.mem_cons_of_mem _ hu)

theorem declareTransition (hc : c.WellFormed) {t : Transition σ ε} {c' : Chart σ ε}
    (h : c.declareTransition t = .ok c') : c'.WellFormed := by
  obtain ⟨hends, rfl⟩ := eq_of_checked h
  exact hc.add (checkEnds_eq_ok_iff.mp hends)

theorem disable (hc : c.WellFormed) {source target : String} {c' : Chart σ ε}
    (h : c.disable source target = .ok c') : c'.WellFormed := by
  obtain ⟨hends, rfl⟩ := eq_of_checked h
  exact hc.alter (checkEnds_eq_ok_iff.mp hends) (by simp)

theorem addTransitions (hc : c.WellFormed) {ts : List (Transition σ ε)} {c' : Chart σ ε}
    (h : c.addTransitions ts = .ok c') : c'.WellFormed := by
  obtain ⟨hends, rfl⟩ := eq_of_checked h
  exact hc.addAll (checkAll_eq_ok_iff.mp hends)

theorem addOutline (hc : c.WellFormed) {built : Except BranchError Unit × Outline σ ε}
    {c' : Chart σ ε} (h : c.addOutline built = .ok c') : c'.WellFormed := by
  unfold Chart.addOutline at h
  split at h
  · simp at h
  · exact hc.addTransitions h

end WellFormed
end Chart
end Turnstile
