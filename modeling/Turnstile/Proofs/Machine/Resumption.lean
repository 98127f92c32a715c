import Turnstile.Proofs.Machine.Request
import Turnstile.Proofs.Position
import Turnstile.Proofs.Reachable

/-!
# Saved machines resume

A position is the name of a state, and on a reachable chart the name is enough: restoring
it puts any machine of the chart into the very state that was saved.  What the machine
remembers beside its place is then of no account for anything that it answers, so no
caller can tell it from the one that was saved.
-/

namespace Turnstile

variable {σ ε : Type}

namespace Machine

/-- The machines stand in one state of one chart. -/
structure SamePlace (m m' : Machine σ ε) : Prop where
  chart : m.chart = m'.chart
  state : m.state = m'.state

theorem SamePlace.coupling :
    Machine.Coupling (SamePlace : Machine σ ε → Machine σ ε → Prop) where
  chart := fun hp => hp.chart
  state := fun hp => hp.state
  commit := fun hp _ _ _ _ => ⟨hp.chart, rfl⟩

/-- Has come into the hall at noon. -/
def caller : Machine Bool String :=
  Machine.visitor.commit
    { source := "street", target := "hall", condition := some (.named "locked"), negate := true }
    { name := "hall", flags := { transient := true } } .noon

end Machine

namespace Blueprint

variable {b : Blueprint σ ε}

theorem Yields.restore_save (hb : b.chart.WellFormed) {m m' : Machine σ ε} (hm : b.Yields m)
    (hm' : b.Yields m') : m'.restore m.save = .ok (m'.moveTo m.state) := by
  have hstate : m'.chart.state? m.save.state = some m.state := by
    rw [hm'.chart_eq]
    exact hm.state?_eq hb
  rw [Machine.restore, hstate]

theorem ofBytes_toBytes_save {m : Machine σ ε}
    (hfit : (Text.utf8 m.state.name).length < UInt64.size) :
    Position.ofBytes m.save.toBytes = .ok m.save := by
  have hread := Position.ofBytes_toBytes_append (p := m.save) hfit []
  rwa [List.append_nil] at hread

/-- The position of a machine is read back from its text and, if the length of the state's
name fits into 64 bits, from its bytes.  Restoring it puts any machine on the same
blueprint into the same state, with nothing behind it but the bound on its history.  From
then on the two serve every row of requests alike: with what they answer, with what the
handlers remember after each request and with the states in which they stand then. -/
theorem Reachable.restored_resumes (hb : b.Reachable) {m m' : Machine σ ε} (hm : b.Yields m)
    (hm' : b.Yields m') :
    Position.ofText m.save.toText = .ok m.save ∧
    ((Text.utf8 m.state.name).length < UInt64.size →
      Position.ofBytes m.save.toBytes = .ok m.save) ∧
    ∃ restored, m'.restore m.save = .ok restored ∧ restored.state = m.state ∧
      restored.latest = none ∧ restored.history.passages = [] ∧
      restored.history.limit = m'.history.limit ∧
      ∀ (requests : List (Request σ ε)) (clock clock' : Nat → Nat → Instant) (budget : Nat)
        (memory : σ),
        (Session.serveAll clock budget requests { machine := m, memory }).map Prod.fst =
          (Session.serveAll clock' budget requests { machine := restored, memory }).map
            Prod.fst := by
  refine ⟨Position.ofText_toText m.save, ofBytes_toBytes_save, m'.moveTo m.state,
    hm.restore_save hb.wellFormed hm', rfl, rfl, rfl, rfl, ?_⟩
  intro requests clock clock' budget memory
  have hplace : m.SamePlace (m'.moveTo m.state) := by
    constructor
    · rw [Machine.chart_moveTo, hm.chart_eq, hm'.chart_eq]
    · rfl
  have hpaired : Session.Paired Machine.SamePlace { machine := m, memory }
      { machine := m'.moveTo m.state, memory } := ⟨hplace, rfl⟩
  have hserved :=
    Machine.SamePlace.coupling.serveAll hpaired clock clock' budget requests
  exact hserved.map_fst_eq

theorem entrance_yields_caller : entrance.Yields .caller :=
  .next (.start (m := .visitor) rfl) (.step .porter .noon none false)

theorem entrance_restored_resumes :
    entrance.Reachable ∧ entrance.Yields .caller ∧
      entrance.Yields (Machine.guest.limitHistory 1) ∧
      (Text.utf8 Machine.caller.state.name).length < UInt64.size ∧
      Position.ofText Machine.caller.save.toText = .ok { state := "hall" } ∧
      Position.ofBytes Machine.caller.save.toBytes = .ok { state := "hall" } ∧
      ∃ restored, (Machine.guest.limitHistory 1).restore { state := "hall" } = .ok restored ∧
        restored.state.name = "hall" ∧ restored.history.limit = some 1 ∧
        (Session.serveAll (fun _ _ => .noon) 2 [{ drive := .run, handler := .porter }]
            { machine := .caller, memory := false }).map Prod.fst =
          (Session.serveAll (fun _ _ => .noon) 2 [{ drive := .run, handler := .porter }]
            { machine := restored, memory := false }).map Prod.fst := by
  have hcaller := entrance_yields_caller
  have hguest : entrance.Yields (Machine.guest.limitHistory 1) :=
    .next entrance_yields_guest (.limitHistory 1)
  have hfit : (Text.utf8 Machine.caller.state.name).length < UInt64.size := by decide
  obtain ⟨htext, hbytes, restored, hrestore, hstate, -, -, hlimit, hserved⟩ :=
    entrance_reachable.restored_resumes hcaller hguest
  exact ⟨entrance_reachable, hcaller, hguest, hfit, htext, hbytes hfit, restored, hrestore,
    congrArg State.name hstate, hlimit, hserved _ _ _ _ _⟩

end Blueprint
end Turnstile
