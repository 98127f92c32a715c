import Turnstile.Proofs.Chart.States

/-!
# Positions survive derivation

No edit ever takes a state away.  A blueprint that was derived from another, and edited in
any way since, still has a state of every name that its ancestor had, so the position of a
machine on the ancestor can be restored on the derived blueprint.  The machine then stands
in the state of that name as the derived blueprint has it
(`Blueprint.positions_survive_derivation`).

A name that was never declared is refused.  That the refusal leaves the machine as it was is
said of a machine that is relocated in place: the name is looked up before anything is
written.
-/

namespace Turnstile

variable {σ ε : Type}

/-! ## Relocations -/

/-- Work on a machine in place.  A fault ends it, and what was written before stays. -/
abbrev Relocation (σ ε : Type) := ExceptT Fault (StateM (Machine σ ε))

namespace Relocation

/-- What a relocation of a machine answers, and the machine that it leaves. -/
def on {α : Type} (r : Relocation σ ε α) (m : Machine σ ε) : Except Fault α × Machine σ ε :=
  Id.run (StateT.run (ExceptT.run r) m)

def stateNamed (name : String) : Relocation σ ε State := do
  match (← get).chart.state? name with
  | some state => return state
  | none => throw (.unknownState name)

/-- Puts the machine into the state of a position, one part after the other. -/
def restore (p : Position) : Relocation σ ε Unit := do
  let state ← stateNamed p.state
  modify fun m => { m with state }
  modify fun m => { m with latest := none }
  modify fun m => { m with history := m.history.cleared }

theorem on_bind {α β : Type} (r : Relocation σ ε α) (f : α → Relocation σ ε β)
    (m : Machine σ ε) :
    (r >>= f).on m =
      match r.on m with
      | (.ok a, m') => (f a).on m'
      | (.error fault, m') => (.error fault, m') := by
  rw [on, ExceptT.run_bind, StateT.run_bind, on]
  generalize r.run.run m = outcome
  rcases outcome with ⟨_ | _, _⟩ <;> rfl

theorem on_stateNamed (name : String) (m : Machine σ ε) :
    (stateNamed name).on m =
      match m.chart.state? name with
      | some state => (.ok state, m)
      | none => (.error (.unknownState name), m) := by
  have hnamed : (stateNamed name).on m =
      on (match m.chart.state? name with
        | some state => (return state : Relocation σ ε State)
        | none => throw (.unknownState name)) m := rfl
  rw [hnamed]
  cases m.chart.state? name <;> rfl

/-- In place a machine comes to what `Machine.restore` answers, and stays as it was when that
is a fault. -/
theorem on_restore (p : Position) (m : Machine σ ε) :
    (restore p).on m =
      match m.restore p with
      | .ok restored => (.ok (), restored)
      | .error fault => (.error fault, m) := by
  rw [restore, on_bind, on_stateNamed, Machine.restore]
  cases m.chart.state? p.state <;> rfl

end Relocation

/-! ## Main statement -/

namespace Blueprint

/-- A machine on a derived blueprint is put into the state that has the name of where a
machine on the ancestor stood, with the flags that the derived blueprint gives it, and
nothing is left behind it but the bound on its history.  A position whose name neither
blueprint nor any ancestor has declared is refused, and the machine is as it was. -/
theorem positions_survive_derivation (edits later : List (Edit σ ε)) :
    let b := edits.foldl edit empty
    let derived := later.foldl edit b.inherit
    ∀ m', derived.Yields m' →
      (∀ m, b.Yields m →
        ∃ restored, m'.restore m.save = .ok restored ∧
          derived.chart.state? m.state.name = some restored.state ∧
          restored.chart = derived.chart ∧ restored.latest = none ∧
          restored.history.passages = [] ∧ restored.history.limit = m'.history.limit) ∧
      ∀ p : Position, p.state ∉ Edit.declaredNames (edits ++ later) →
        m'.restore p = .error (.unknownState p.state) ∧
        (Relocation.restore p).on m' = (.error (.unknownState p.state), m') := by
  intro b derived m' hm'
  have hderived : derived = (edits ++ .inherit :: later).foldl edit empty := by
    rw [List.foldl_append, List.foldl_cons]
    rfl
  have hnames : Edit.declaredNames (edits ++ .inherit :: later) =
      Edit.declaredNames (edits ++ later) := by
    rw [Edit.declaredNames_append, Edit.declaredNames_append, Edit.declaredNames_cons]
    rfl
  have hnone : ∀ name,
      m'.chart.state? name = none ↔ name ∉ Edit.declaredNames (edits ++ later) := by
    intro name
    rw [hm'.chart_eq, hderived, state?_foldl_edit_eq_none_iff, hnames]
  constructor
  · intro m hm
    have hdeclared : m.state.name ∈ Edit.declaredNames (edits ++ later) := by
      have hstate := hm.state?_eq (Reachable.wellFormed ⟨edits, rfl⟩)
      by_contra hname
      rw [Edit.declaredNames_append, List.mem_append, not_or] at hname
      rw [state?_foldl_edit_eq_none_iff.mpr hname.1] at hstate
      cases hstate
    obtain ⟨state, hstate⟩ := Option.ne_none_iff_exists'.mp fun h => (hnone _).mp h hdeclared
    refine ⟨m'.moveTo state, ?_, ?_, hm'.chart_eq, rfl, rfl, rfl⟩
    · rw [Machine.restore, Machine.save, hstate]
    · rw [← hm'.chart_eq]
      exact hstate
  · intro p hp
    have hrefused : m'.restore p = .error (.unknownState p.state) := by
      rw [Machine.restore, (hnone p.state).mpr hp]
    refine ⟨hrefused, ?_⟩
    rw [Relocation.on_restore, hrefused]

theorem annex_positions_survive_derivation :
    let hall : Blueprint Bool String := (Edit.annex.take 1).foldl edit empty
    let annex := (Edit.annex.drop 1).foldl edit hall.inherit
    let host : Machine Bool String :=
      { chart := hall.chart, state := { name := "hall", flags := { initial := true } },
        latest := none, history := History.empty }
    let lodger : Machine Bool String :=
      { chart := annex.chart,
        state := { name := "loft", flags := { initial := true, transient := true } },
        latest := none, history := History.bounded 3 }
    hall.Yields host ∧ annex.Yields lodger ∧
      (∃ restored, lodger.restore host.save = .ok restored ∧
        restored.state = { name := "hall", flags := { final := true, transient := true } } ∧
        restored.history.limit = some 3) ∧
      "garden" ∉ Edit.declaredNames (Edit.annex.take 1 ++ Edit.annex.drop 1) ∧
      (Relocation.restore { state := "garden" }).on lodger =
        (.error (.unknownState "garden"), lodger) := by
  intro hall annex host lodger
  have hhost : hall.Yields host := .start rfl
  have hlodger : annex.Yields lodger :=
    .next (.start (m := { lodger with history := History.empty }) rfl) (.limitHistory 3)
  have hgarden : "garden" ∉ Edit.declaredNames (Edit.annex.take 1 ++ Edit.annex.drop 1) := by
    decide
  obtain ⟨hsaved, hunknown⟩ :=
    positions_survive_derivation (Edit.annex.take 1) (Edit.annex.drop 1) lodger hlodger
  obtain ⟨restored, hrestored, hstate, -, -, -, hlimit⟩ := hsaved host hhost
  exact ⟨hhost, hlodger, ⟨restored, hrestored, (Option.some.inj hstate).symm, hlimit⟩, hgarden,
    (hunknown { state := "garden" } hgarden).2⟩

end Blueprint
end Turnstile
