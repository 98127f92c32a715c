import Turnstile.Proofs.Reachable

/-!
# Transitions that are added together

Transitions can be declared in a row, each one checked when its turn comes, or be added
together, all of them checked before the first is filed.  The two agree in what they come
to, and in the first fault that they find (`Chart.addTransitions_eq_foldlM`).

They differ in what a refusal leaves behind, which shows when a chart is changed in place.
An amendment does that: it writes as it goes, and what it has written when it is refused
stays written.  A row of declarations then leaves those before the refused one behind, and
transitions that are added together leave nothing (`Blueprint.adds_all_or_none`).
-/

namespace Turnstile

variable {σ ε : Type}

/-! ## Refusals -/

namespace Chart

/-- Both ends of the transition are declared. -/
def Admits (c : Chart σ ε) (t : Transition σ ε) : Prop :=
  (c.state? t.source).isSome ∧ (c.state? t.target).isSome

instance (c : Chart σ ε) (t : Transition σ ε) : Decidable (c.Admits t) :=
  inferInstanceAs (Decidable (_ ∧ _))

/-- Why a transition is refused: an end of it is not declared.  The target is of no account
as long as the source is not declared. -/
inductive Refuses (c : Chart σ ε) (t : Transition σ ε) : DeclareError → Prop
  | source (hsource : c.state? t.source = none) : Refuses c t (.unknownState .source t.source)
  | target (hsource : (c.state? t.source).isSome) (htarget : c.state? t.target = none) :
      Refuses c t (.unknownState .target t.target)

variable {c : Chart σ ε} {e : DeclareError}

theorem checkEnds_of_refuses {t : Transition σ ε} (ht : c.Refuses t e) :
    c.checkEnds t.source t.target = .error e := by
  cases ht with
  | source hsource =>
    rw [checkEnds, hsource]
    rfl
  | target hsource htarget =>
    obtain ⟨source, hsource⟩ := Option.isSome_iff_exists.mp hsource
    rw [checkEnds, hsource, htarget]
    rfl

theorem checkEnds_eq_error_iff {t : Transition σ ε} :
    c.checkEnds t.source t.target = .error e ↔ c.Refuses t e := by
  refine ⟨fun he => ?_, checkEnds_of_refuses⟩
  unfold checkEnds at he
  cases hsource : c.state? t.source with
  | none =>
    rw [hsource] at he
    obtain rfl := Except.error.inj he
    exact .source hsource
  | some source =>
    rw [hsource] at he
    cases htarget : c.state? t.target with
    | none =>
      rw [htarget] at he
      obtain rfl := Except.error.inj he
      exact .target (Option.isSome_of_eq_some hsource) htarget
    | some target =>
      rw [htarget] at he
      cases he

theorem checkAll_append (c : Chart σ ε) (before after : List (Transition σ ε)) :
    c.checkAll (before ++ after) =
      match c.checkAll before with
      | .ok () => c.checkAll after
      | .error e => .error e := by
  induction before with
  | nil => rfl
  | cons t before ih =>
    rw [List.cons_append, checkAll, checkAll, ih]
    cases c.checkEnds t.source t.target <;> rfl

/-- Of several transitions the first that is refused decides. -/
theorem checkAll_eq_error_iff {ts : List (Transition σ ε)} :
    c.checkAll ts = .error e ↔
      ∃ before t after, ts = before ++ t :: after ∧ (∀ u ∈ before, c.Admits u) ∧
        c.Refuses t e := by
  constructor
  · intro he
    induction ts with
    | nil => cases he
    | cons first ts ih =>
      rw [checkAll] at he
      cases hfirst : c.checkEnds first.source first.target with
      | error refusal =>
        rw [hfirst] at he
        obtain rfl := Except.error.inj he
        exact ⟨[], first, ts, rfl, by simp, checkEnds_eq_error_iff.mp hfirst⟩
      | ok u =>
        rw [hfirst] at he
        obtain ⟨before, t, after, rfl, hbefore, ht⟩ := ih he
        refine ⟨first :: before, t, after, rfl, ?_, ht⟩
        exact List.forall_mem_cons.mpr ⟨checkEnds_eq_ok_iff.mp hfirst, hbefore⟩
  · rintro ⟨before, t, after, rfl, hbefore, ht⟩
    rw [checkAll_append, checkAll_eq_ok_iff.mpr hbefore]
    show c.checkAll (t :: after) = _
    rw [checkAll, checkEnds_of_refuses ht]

/-- When not all of the transitions are admitted, there is a first that is refused. -/
theorem exists_refused {ts : List (Transition σ ε)} (hts : ¬ ∀ t ∈ ts, c.Admits t) :
    ∃ before t after e, ts = before ++ t :: after ∧ (∀ u ∈ before, c.Admits u) ∧
      c.Refuses t e := by
  cases hcheck : c.checkAll ts with
  | ok u => exact absurd (checkAll_eq_ok_iff.mp hcheck) hts
  | error e =>
    obtain ⟨before, t, after, hrow, hbefore, ht⟩ := checkAll_eq_error_iff.mp hcheck
    exact ⟨before, t, after, e, hrow, hbefore, ht⟩

theorem Refuses.with_table {t : Transition σ ε} {table : Table σ ε} (ht : c.Refuses t e) :
    Refuses { c with table } t e := by
  cases ht with
  | source hsource => exact .source hsource
  | target hsource htarget => exact .target hsource htarget

/-! ## Rows of declarations -/

/-- What is filed has no part in whether transitions are refused. -/
theorem checkAll_with_table (c : Chart σ ε) (table : Table σ ε) (ts : List (Transition σ ε)) :
    checkAll { c with table } ts = c.checkAll ts := by
  induction ts with
  | nil => rfl
  | cons t ts ih =>
    rw [checkAll, checkAll, ih]
    rfl

/-- Adding transitions together comes to what declaring them in a row comes to. -/
theorem addTransitions_eq_foldlM (c : Chart σ ε) (ts : List (Transition σ ε)) :
    c.addTransitions ts = ts.foldlM declareTransition c := by
  induction ts generalizing c with
  | nil => rfl
  | cons t ts ih =>
    rw [List.foldlM_cons, addTransitions, checkAll, declareTransition]
    cases c.checkEnds t.source t.target with
    | error e => rfl
    | ok u =>
      -- the checks of the others may as well be made on the chart that has `t` already
      show _ = ts.foldlM declareTransition { c with table := c.table.add t }
      rw [← ih, addTransitions, checkAll_with_table c (c.table.add t) ts]
      rfl

end Chart

/-! ## Amendments -/

/-- Work on a chart in place.  A refusal ends it, and what was written before stays. -/
abbrev Amendment (σ ε : Type) := ExceptT DeclareError (StateM (Chart σ ε))

namespace Amendment

/-- What an amendment of a chart answers, and the chart that it leaves. -/
def on (a : Amendment σ ε Unit) (c : Chart σ ε) : Except DeclareError Unit × Chart σ ε :=
  Id.run (StateT.run (ExceptT.run a) c)

def check (t : Transition σ ε) : Amendment σ ε Unit := do
  match (← get).checkEnds t.source t.target with
  | .ok () => return
  | .error e => throw e

def file (t : Transition σ ε) : Amendment σ ε Unit :=
  modify fun c => { c with table := c.table.add t }

def declare (t : Transition σ ε) : Amendment σ ε Unit := do
  check t
  file t

def declareInRow (ts : List (Transition σ ε)) : Amendment σ ε Unit := ts.forM declare

/-- Checks all of the transitions before the first is filed. -/
def addTogether (ts : List (Transition σ ε)) : Amendment σ ε Unit := do
  ts.forM check
  ts.forM file

variable {c : Chart σ ε} {t : Transition σ ε} {ts : List (Transition σ ε)} {e : DeclareError}

theorem on_bind (a : Amendment σ ε Unit) (f : Unit → Amendment σ ε Unit) (c : Chart σ ε) :
    (a >>= f).on c =
      match a.on c with
      | (.ok (), c') => (f ()).on c'
      | (.error e, c') => (.error e, c') := by
  rw [on, ExceptT.run_bind, StateT.run_bind, on]
  generalize a.run.run c = r
  rcases r with ⟨_ | _, _⟩ <;> rfl

theorem on_check (t : Transition σ ε) (c : Chart σ ε) :
    (check t).on c = (c.checkEnds t.source t.target, c) := by
  have hcheck : (check t).on c =
      on (match c.checkEnds t.source t.target with
        | .ok () => (return : Amendment σ ε Unit)
        | .error e => throw e) c := rfl
  rw [hcheck]
  cases c.checkEnds t.source t.target <;> rfl

/-- Checks leave the chart as it is, so all of them look at the same one. -/
theorem on_forM_check (ts : List (Transition σ ε)) (c : Chart σ ε) :
    on (ts.forM check) c = (c.checkAll ts, c) := by
  induction ts with
  | nil => rfl
  | cons t ts ih =>
    show on (check t >>= fun _ => ts.forM check) c = _
    rw [on_bind, on_check, Chart.checkAll]
    cases c.checkEnds t.source t.target with
    | error e => rfl
    | ok u => exact ih

theorem on_forM_file (ts : List (Transition σ ε)) (c : Chart σ ε) :
    on (ts.forM file) c = (.ok (), { c with table := ts.foldl Table.add c.table }) := by
  induction ts generalizing c with
  | nil => rfl
  | cons t ts ih => exact ih { c with table := c.table.add t }

theorem on_declare_of_admits (ht : c.Admits t) :
    (declare t).on c = (.ok (), { c with table := c.table.add t }) := by
  rw [declare, on_bind, on_check, Chart.checkEnds_eq_ok_iff.mpr ht]
  rfl

theorem on_declare_of_refuses (ht : c.Refuses t e) : (declare t).on c = (.error e, c) := by
  rw [declare, on_bind, on_check, Chart.checkEnds_of_refuses ht]

theorem on_declareInRow_of_admits (hts : ∀ t ∈ ts, c.Admits t) :
    (declareInRow ts).on c = (.ok (), { c with table := ts.foldl Table.add c.table }) := by
  induction ts generalizing c with
  | nil => rfl
  | cons t ts ih =>
    obtain ⟨ht, hts⟩ := List.forall_mem_cons.mp hts
    show on (declare t >>= fun _ => declareInRow ts) c = _
    rw [on_bind, on_declare_of_admits ht]
    exact ih (c := { c with table := c.table.add t }) hts

/-- A row of declarations leaves what comes before the first that is refused. -/
theorem on_declareInRow_of_refuses {before : List (Transition σ ε)}
    (hbefore : ∀ u ∈ before, c.Admits u) (ht : c.Refuses t e) (after : List (Transition σ ε)) :
    (declareInRow (before ++ t :: after)).on c =
      (.error e, { c with table := before.foldl Table.add c.table }) := by
  induction before generalizing c with
  | nil =>
    show on (declare t >>= fun _ => declareInRow after) c = _
    rw [on_bind, on_declare_of_refuses ht]
    rfl
  | cons u before ih =>
    obtain ⟨hu, hbefore⟩ := List.forall_mem_cons.mp hbefore
    show on (declare u >>= fun _ => declareInRow (before ++ t :: after)) c = _
    rw [on_bind, on_declare_of_admits hu]
    -- the rest of the row finds `u` filed, which has no part in its checks
    exact ih (c := { c with table := c.table.add u }) hbefore ht.with_table

theorem on_addTogether_of_admits (hts : ∀ t ∈ ts, c.Admits t) :
    (addTogether ts).on c = (.ok (), { c with table := ts.foldl Table.add c.table }) := by
  rw [addTogether, on_bind, on_forM_check, Chart.checkAll_eq_ok_iff.mpr hts]
  exact on_forM_file ts c

/-- Transitions that are added together leave nothing when one of them is refused. -/
theorem on_addTogether_of_refuses {before : List (Transition σ ε)}
    (hbefore : ∀ u ∈ before, c.Admits u) (ht : c.Refuses t e) (after : List (Transition σ ε)) :
    (addTogether (before ++ t :: after)).on c = (.error e, c) := by
  rw [addTogether, on_bind, on_forM_check,
    Chart.checkAll_eq_error_iff.mpr ⟨before, t, after, rfl, hbefore, ht⟩]

end Amendment

/-! ## Main statement -/

namespace Blueprint

theorem tryEdit_addTransitions (b : Blueprint σ ε) (ts : List (Transition σ ε)) :
    b.tryEdit (.addTransitions ts) =
      ts.foldlM (fun b' t => b'.tryEdit (.declareTransition t)) b := by
  rw [tryEdit, Chart.addTransitions_eq_foldlM]
  induction ts generalizing b with
  | nil => rfl
  | cons t ts ih =>
    rw [List.foldlM_cons, List.foldlM_cons, tryEdit]
    cases b.chart.declareTransition t with
    | error e => rfl
    | ok chart => exact ih { b with chart }

theorem tryEdit_addTransitions_of_admits {b : Blueprint σ ε} {ts : List (Transition σ ε)}
    (hts : ∀ t ∈ ts, b.chart.Admits t) :
    b.tryEdit (.addTransitions ts) =
      .ok { b with chart := { b.chart with table := ts.foldl Table.add b.chart.table } } := by
  rw [tryEdit, Chart.addTransitions, Chart.checkAll_eq_ok_iff.mpr hts]
  rfl

theorem tryEdit_addTransitions_of_refuses {b : Blueprint σ ε} {t : Transition σ ε}
    {e : DeclareError} {before : List (Transition σ ε)}
    (hbefore : ∀ u ∈ before, b.chart.Admits u) (ht : b.chart.Refuses t e)
    (after : List (Transition σ ε)) :
    b.tryEdit (.addTransitions (before ++ t :: after)) = .error e := by
  rw [tryEdit, Chart.addTransitions,
    Chart.checkAll_eq_error_iff.mpr ⟨before, t, after, rfl, hbefore, ht⟩]
  rfl

theorem tryEdit_define (b : Blueprint σ ε) (body : Handle → Build σ ε Unit) :
    b.tryEdit (.define body) =
      match Id.run ((body Handle.root).runOn Outline.root) with
      | (.ok (), o) => b.tryEdit (.addTransitions (o.transitionsFrom Handle.root))
      | (.error e, _) => .error (.branch e) := by
  have hdefine : b.tryEdit (.define body) =
      (b.chart.addOutline (Id.run ((body Handle.root).runOn Outline.root))).map
        fun chart => { b with chart } := rfl
  rw [hdefine]
  rcases Id.run ((body Handle.root).runOn Outline.root) with ⟨e | u, o⟩ <;> rfl

/-- What a build that succeeds leads to can be defined between declared states. -/
theorem tryEdit_define_of_admits {b : Blueprint σ ε} {body : Handle → Build σ ε Unit}
    {o : Outline σ ε} (hrun : Id.run ((body Handle.root).runOn Outline.root) = (.ok (), o))
    (hends : ∀ t ∈ o.transitionsFrom Handle.root, b.chart.Admits t) :
    b.tryEdit (.define body) =
      .ok { b with chart :=
        { b.chart with
          table := (o.transitionsFrom Handle.root).foldl Table.add b.chart.table } } := by
  rw [tryEdit_define, hrun]
  exact tryEdit_addTransitions_of_admits hends

theorem edit_eq_of_refused {b : Blueprint σ ε} {e : Edit σ ε} {refusal : DeclareError}
    (he : b.tryEdit e = .error refusal) : b.edit e = b := by
  rw [edit, he]

/-- Transitions that are added together come to what they come to when they are declared in
a row.  When both ends of all of them are declared, they are added, and in place there is no
difference either.  Otherwise one of them is the first to be refused and decides the answer,
but in place only the row leaves those before it; the transitions that are added together
leave the chart as it was, for all edits to come.  An outline is added as the transitions
that are built from it, and when it could not be built the answer says why and nothing has
changed, whatever of it was built. -/
theorem adds_all_or_none (b : Blueprint σ ε) (ts : List (Transition σ ε)) :
    b.tryEdit (.addTransitions ts) =
      ts.foldlM (fun b' t => b'.tryEdit (.declareTransition t)) b ∧
    ((∀ t ∈ ts, b.chart.Admits t) →
      ∃ chart, b.tryEdit (.addTransitions ts) = .ok { b with chart } ∧
        (Amendment.addTogether ts).on b.chart = (.ok (), chart) ∧
        (Amendment.declareInRow ts).on b.chart = (.ok (), chart)) ∧
    (¬ (∀ t ∈ ts, b.chart.Admits t) →
      ∃ before t after refusal, ts = before ++ t :: after ∧
        (∀ u ∈ before, b.chart.Admits u) ∧ b.chart.Refuses t refusal ∧
        b.tryEdit (.addTransitions ts) = .error refusal ∧
        (Amendment.addTogether ts).on b.chart = (.error refusal, b.chart) ∧
        (Amendment.declareInRow ts).on b.chart =
          (.error refusal, { b.chart with table := before.foldl Table.add b.chart.table }) ∧
        ∀ later : List (Edit σ ε),
          later.foldl edit (b.edit (.addTransitions ts)) = later.foldl edit b) ∧
    ∀ body : Handle → Build σ ε Unit,
      match Id.run ((body Handle.root).runOn Outline.root) with
      | (.ok (), o) =>
        b.tryEdit (.define body) = b.tryEdit (.addTransitions (o.transitionsFrom Handle.root)) ∧
        b.edit (.define body) = b.edit (.addTransitions (o.transitionsFrom Handle.root))
      | (.error e, _) =>
        b.tryEdit (.define body) = .error (.branch e) ∧
        ∀ later : List (Edit σ ε),
          later.foldl edit (b.edit (.define body)) = later.foldl edit b := by
  refine ⟨b.tryEdit_addTransitions ts, fun hts => ?_, fun hts => ?_, fun body => ?_⟩
  · exact ⟨_, tryEdit_addTransitions_of_admits hts, Amendment.on_addTogether_of_admits hts,
      Amendment.on_declareInRow_of_admits hts⟩
  · obtain ⟨before, t, after, refusal, rfl, hbefore, ht⟩ := Chart.exists_refused hts
    have hrefused := tryEdit_addTransitions_of_refuses hbefore ht after
    refine ⟨before, t, after, refusal, rfl, hbefore, ht, hrefused,
      Amendment.on_addTogether_of_refuses hbefore ht after,
      Amendment.on_declareInRow_of_refuses hbefore ht after, fun later => ?_⟩
    rw [edit_eq_of_refused hrefused]
  · have hdefine := b.tryEdit_define body
    rcases hbuilt : Id.run ((body Handle.root).runOn Outline.root) with ⟨e | u, o⟩
    · rw [hbuilt] at hdefine
      refine ⟨hdefine, fun later => ?_⟩
      rw [edit_eq_of_refused hdefine]
    · rw [hbuilt] at hdefine
      refine ⟨hdefine, ?_⟩
      rw [edit, edit, hdefine]

theorem entrance_adds_all_or_none :
    let way : Transition Bool String := { source := "street", target := "room" }
    let stray : Transition Bool String := { source := "room", target := "garden" }
    (∀ t ∈ [way], entrance.chart.Admits t) ∧
    (∃ chart, entrance.tryEdit (.addTransitions [way]) = .ok { entrance with chart } ∧
      (Amendment.declareInRow [way]).on entrance.chart = (.ok (), chart)) ∧
    (¬ ∀ t ∈ [way, stray], entrance.chart.Admits t) ∧
    ∃ refusal, refusal = .unknownState .target "garden" ∧
      entrance.tryEdit (.addTransitions [way, stray]) = .error refusal ∧
      (Amendment.addTogether [way, stray]).on entrance.chart =
        (.error refusal, entrance.chart) := by
  intro way stray
  have hadmitted : ∀ t ∈ [way], entrance.chart.Admits t := by decide
  have hstray : ¬ ∀ t ∈ [way, stray], entrance.chart.Admits t := by decide
  obtain ⟨chart, hadd, -, hrow⟩ := (adds_all_or_none entrance [way]).2.1 hadmitted
  obtain ⟨-, -, -, refusal, -, -, -, hrefused, htogether, -⟩ :=
    (adds_all_or_none entrance [way, stray]).2.2.1 hstray
  have hgarden : entrance.tryEdit (.addTransitions [way, stray]) =
      .error (.unknownState .target "garden") := rfl
  exact ⟨hadmitted, ⟨chart, hadd, hrow⟩, hstray, refusal,
    Except.error.inj (hrefused.symm.trans hgarden), hrefused, htogether⟩

end Blueprint
end Turnstile
