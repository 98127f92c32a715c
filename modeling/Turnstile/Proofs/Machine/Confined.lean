import Turnstile.Proofs.Machine.Audited
import Turnstile.Proofs.Machine.Walk

/-!
# Machines stay within reach

A machine that is left to itself, and not put at a position from outside, follows the
transitions of its chart from the initial state on.  Whatever its handlers say, it comes
only to states that an audit has found in reach, and its history names no others
(`Blueprint.Reachable.stays_in_reach`).  The transitions that it makes are open at the time,
and the audit asks for no condition, so a search that leaves conditions aside has met the
target of each of them.
-/

namespace Turnstile

open Relation

variable {σ ε : Type}

/-- A path names the ends of passages and nothing else. -/
theorem History.exists_passage_of_mem_path {h : History} {name : String} (hname : name ∈ h.path) :
    ∃ p ∈ h.passages, name = p.source ∨ name = p.target := by
  unfold path at hname
  split at hname
  · cases hname
  · next first rest hps =>
    rw [hps]
    rcases List.mem_cons.mp hname with rfl | hname
    · exact ⟨first, List.mem_cons_self, .inl rfl⟩
    · obtain ⟨p, hp, rfl⟩ : ∃ p ∈ first :: rest, p.target = name := List.mem_map.mp hname
      exact ⟨p, hp, .inr rfl⟩

namespace Machine

/-- A call that leaves it to the machine where it goes, which is any call but a `restore`. -/
inductive Onward (m : Machine σ ε) : Machine σ ε → Prop
  | step (h : Handler σ ε) (now : Instant) (event : Option ε) (memory : σ) :
      Onward m (Session.step h now event { machine := m, memory }).2.machine
  | run {h : Handler σ ε} {clock : Nat → Instant} {event : Option ε} {memory : σ}
      {budget : Nat} {r : Except Fault Outcome} {s : Session σ ε}
      (hrun : Session.run h clock event budget { machine := m, memory } = some (r, s)) :
      Onward m s.machine
  | reset {m' : Machine σ ε} (hm : m.reset = .ok m') : Onward m m'
  | limitHistory (limit : Nat) : Onward m (m.limitHistory limit)

/-- On the chart `c`, transitions lead from `first` to where the machine stands and to all
that its history names. -/
structure Confined (c : Chart σ ε) (first : String) (m : Machine σ ε) : Prop where
  chart : m.chart = c
  state : ReflTransGen c.Leads first m.state.name
  ends : ∀ p ∈ m.history.latest,
    ReflTransGen c.Leads first p.source ∧ ReflTransGen c.Leads first p.target

namespace Confined

variable {c : Chart σ ε} {first : String} {m : Machine σ ε}

theorem of_empty (hchart : m.chart = c) (hstate : m.state.name = first)
    (hhistory : m.history.latest = []) : m.Confined c first where
  chart := hchart
  state := hstate ▸ .refl
  ends := by simp [hhistory]

theorem commit (hm : m.Confined c first) {t : Transition σ ε} {target : State}
    (hleads : c.Leads m.state.name t.target) (hsource : t.source = m.state.name)
    (htarget : target.name = t.target) (now : Instant) :
    (m.commit t target now).Confined c first where
  chart := hm.chart
  state := by
    show ReflTransGen c.Leads first target.name
    rw [htarget]
    exact hm.state.tail hleads
  ends := by
    intro p hp
    rcases List.mem_cons.mp ((History.cut_isPrefix _ _).subset hp) with rfl | hp
    · exact ⟨hsource ▸ hm.state, hm.state.tail hleads⟩
    · exact hm.ends p hp

theorem limitHistory (hm : m.Confined c first) (n : Nat) :
    (m.limitHistory n).Confined c first where
  chart := hm.chart
  state := hm.state
  ends := fun p hp => hm.ends p (List.mem_of_mem_take hp)

end Confined
end Machine

namespace Session

variable {c : Chart σ ε} {first : String} {h : Handler σ ε} {event : Option ε}
  {s s' : Session σ ε}

theorem Stepped.confined {now : Instant} {r : Except Fault StepResult}
    (hs : Stepped h now event s r s') (hc : c.WellFormed) (hm : s.machine.Confined c first) :
    s'.machine.Confined c first := by
  cases hs with
  | unknown | stuck | finished | ambiguous | lost => exact hm
  | @moved t target fault memory hknown hopen htarget hcalls =>
    have ht := mem_possible_of_opened hopen
    rw [Machine.possible, hm.chart] at ht
    obtain ⟨hmem, hsource⟩ := hc.of_mem_leaving ht
    exact hm.commit ⟨t, hmem, hsource, rfl⟩ hsource (Chart.name_of_state? htarget) now

theorem Runs.confined {clock : Nat → Instant} {taken : Nat}
    {results : List (Except Fault StepResult)} {r : Except Fault Outcome}
    (hr : Runs h clock event taken s results r s') (hc : c.WellFormed)
    (hm : s.machine.Confined c first) : s'.machine.Confined c first := by
  induction hr with
  | last hstep hend => exact (stepped_of_step hstep).confined hc hm
  | more hstep hgo hrest ih => exact ih ((stepped_of_step hstep).confined hc hm)

end Session

namespace Machine

variable {c : Chart σ ε} {start : State} {m m' : Machine σ ε}

theorem Onward.confined (hm' : m.Onward m') (hc : c.WellFormed)
    (hstart : c.initialStates = [start]) (hm : m.Confined c start.name) :
    m'.Confined c start.name := by
  cases hm' with
  | step h now event memory =>
    rcases hstep : Session.step h now event { machine := m, memory } with ⟨r, s'⟩
    exact (Session.stepped_of_step hstep).confined hc hm
  | run hrun =>
    obtain ⟨results, hruns⟩ := Session.exists_runs_of_runFrom hrun
    exact hruns.confined hc hm
  | reset hreset =>
    rw [Machine.reset, hm.chart, Chart.initialState_eq_ok_iff.mpr hstart] at hreset
    obtain rfl := Except.ok.inj hreset
    exact .of_empty hm.chart rfl rfl
  | limitHistory limit => exact hm.limitHistory limit

theorem confined_of_start {m₀ : Machine σ ε} (hm₀ : c.start = .ok m₀) (hc : c.WellFormed)
    (hstart : c.initialStates = [start]) (hcalls : ReflTransGen Onward m₀ m) :
    m.Confined c start.name := by
  induction hcalls with
  | refl =>
    obtain ⟨state, hstate, rfl⟩ := Chart.start_eq_ok_iff.mp hm₀
    obtain rfl := List.singleton_injective (hstart.symm.trans hstate)
    exact .of_empty rfl rfl rfl
  | tail _ hcall ih => exact hcall.confined hc hstart ih

end Machine

/-! ## Main statement -/

namespace Blueprint

/-- After any calls but a `restore` on a machine that has been started, the state in which it
stands and all those that its history names are among those that an audit finds in reach of
the initial state, so it reports none of them as out of reach. -/
theorem Reachable.stays_in_reach {b : Blueprint σ ε} (hb : b.Reachable) {start : State}
    (hstart : b.chart.initialStates = [start]) {m₀ m : Machine σ ε}
    (hm₀ : b.chart.start = .ok m₀) (hcalls : ReflTransGen Machine.Onward m₀ m) :
    ∀ name ∈ m.state.name :: m.history.path,
      name ∈ b.chart.reachableFrom start.name ∧ ¬ b.chart.Reports (.unreachable name) := by
  intro name hname
  have hc := hb.wellFormed
  have hm := Machine.confined_of_start hm₀ hc hstart hcalls
  have hpath : ReflTransGen b.chart.Leads start.name name := by
    rcases List.mem_cons.mp hname with rfl | hname
    · exact hm.state
    · obtain ⟨p, hp, rfl | rfl⟩ := History.exists_passage_of_mem_path hname
      · exact (hm.ends p (List.mem_reverse.mp hp)).1
      · exact (hm.ends p (List.mem_reverse.mp hp)).2
  have hreached := hc.mem_reachableFrom_iff.mpr hpath
  refine ⟨hreached, fun hreport => ?_⟩
  obtain ⟨start', hstart', state, -, hlost, rfl⟩ := Chart.reports_unreachable_iff.mp hreport
  obtain rfl := List.singleton_injective (hstart.symm.trans hstart')
  exact hlost hreached

theorem entrance_stays_in_reach :
    entrance.chart.initialStates = [Machine.visitor.state] ∧
      entrance.chart.start = .ok .visitor ∧
      ReflTransGen Machine.Onward Machine.visitor (Machine.guest.limitHistory 1) ∧
      ∀ name ∈ ["room", "hall", "room"],
        name ∈ entrance.chart.reachableFrom "street" ∧
          ¬ entrance.chart.Reports (.unreachable name) := by
  have hrun : Session.run .porter (fun _ => .noon) none 2
      { machine := .visitor, memory := false } =
        some (.ok { state := "room", steps := 2, status := .final },
          { machine := .guest, memory := false }) := rfl
  have hcalls : ReflTransGen Machine.Onward Machine.visitor (Machine.guest.limitHistory 1) :=
    .tail (.single (.run hrun)) (.limitHistory 1)
  exact ⟨rfl, rfl, hcalls, entrance_reachable.stays_in_reach rfl rfl hcalls⟩

end Blueprint
end Turnstile
