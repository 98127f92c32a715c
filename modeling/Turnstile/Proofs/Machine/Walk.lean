import Mathlib.Data.List.Chain
import Turnstile.Proofs.Reachable

/-!
# Histories are walks

The passages in a machine's history follow one another along transitions of the chart
and end in the state in which the machine stands.  `Walk` says so of the history as it
is held, latest passage first, together with what the latest transition has to do with
it.  Dropping the oldest passages keeps a walk, which covers both the bound of a history
and a new bound, and a transition adds a passage that starts where the machine stood.
-/

namespace Turnstile

variable {σ ε : Type}

namespace History

theorem cut_isPrefix {α : Type} (limit : Option Nat) (xs : List α) : cut limit xs <+: xs := by
  cases limit with
  | none => exact List.prefix_rfl
  | some n =>
    rw [cut_some]
    exact List.take_prefix n xs

theorem getLast?_passages (h : History) : h.passages.getLast? = h.latest.head? :=
  List.getLast?_reverse

/-- The path has one name more than there are passages, and ends where the last one led. -/
theorem path_of_getLast? {h : History} {p : Passage} (hp : h.passages.getLast? = some p) :
    h.path.length = h.passages.length + 1 ∧ h.path.getLast? = some p.target := by
  match hps : h.passages with
  | [] => simp [hps] at hp
  | first :: rest =>
    have hpath : h.path = first.source :: (first :: rest).map Passage.target := by
      rw [path, hps]
      rfl
    rw [hps] at hp
    refine ⟨by simp [hpath], ?_⟩
    rw [hpath, List.getLast?_cons_of_ne_nil (by simp), List.getLast?_map, hp]
    rfl

end History

namespace Machine

/-- The history is a walk along the chart, and the latest transition is the last step of
it, if the history still has it. -/
structure Walk (m : Machine σ ε) : Prop where
  edges : ∀ p ∈ m.history.latest, ∃ t ∈ m.chart.transitions,
    p.source = t.source ∧ p.target = t.target
  chain : m.history.latest.IsChain fun newer older => older.target = newer.source
  bound : ∀ n ∈ m.history.limit, m.history.latest.length ≤ n
  fresh : m.latest = none → m.history.latest = []
  latest : ∀ t ∈ m.latest, t ∈ m.chart.transitions ∧ t.target = m.state.name ∧
    ∀ p ∈ m.history.latest.head?, p.source = t.source ∧ p.target = t.target

namespace Walk

variable {m : Machine σ ε}

theorem target_eq (hw : m.Walk) {p : Passage} (hp : p ∈ m.history.latest.head?) :
    p.target = m.state.name := by
  cases hlatest : m.latest with
  | none =>
    rw [hw.fresh hlatest] at hp
    simp at hp
  | some t =>
    obtain ⟨-, htarget, hends⟩ := hw.latest t hlatest
    rw [(hends p hp).2, htarget]

/-- Dropping the oldest passages keeps a walk. -/
theorem of_isPrefix (hw : m.Walk) {h : History} (hkept : h.latest <+: m.history.latest)
    (hbound : ∀ n ∈ h.limit, h.latest.length ≤ n) : Walk { m with history := h } where
  edges := fun p hp => hw.edges p (hkept.subset hp)
  chain := hw.chain.prefix hkept
  bound := hbound
  fresh := fun hl => List.prefix_nil.mp (hw.fresh hl ▸ hkept)
  latest := by
    intro t ht
    obtain ⟨hmem, htarget, hends⟩ := hw.latest t ht
    refine ⟨hmem, htarget, fun p hp => hends p ?_⟩
    obtain ⟨rest, hrest⟩ := hkept
    rw [← hrest]
    exact List.mem_head?_append_of_mem_head? hp

theorem of_empty (hl : m.latest = none) (hh : m.history.latest = []) : m.Walk where
  edges := by simp [hh]
  chain := hh ▸ List.isChain_nil
  bound := fun n _ => hh ▸ Nat.zero_le n
  fresh := fun _ => hh
  latest := by simp [hl]

theorem limitHistory (hw : m.Walk) (n : Nat) : (m.limitHistory n).Walk := by
  refine hw.of_isPrefix (List.take_prefix n _) fun k hk => ?_
  obtain rfl : n = k := Option.some.inj hk
  exact m.history.size_restrict_le n

theorem commit (hw : m.Walk) {t : Transition σ ε} (ht : t ∈ m.chart.transitions)
    (hsource : t.source = m.state.name) {target : State} (htarget : target.name = t.target)
    (now : Instant) : (m.commit t target now).Walk := by
  have hlong : Walk
      { m.commit t target now with
        history :=
          { latest := { source := t.source, target := t.target, time := now } :: m.history.latest
            limit := none } } :=
    { edges := by
        intro p hp
        rcases List.mem_cons.mp hp with rfl | hp
        · exact ⟨t, ht, rfl, rfl⟩
        · exact hw.edges p hp
      chain := by
        refine List.isChain_cons.mpr ⟨fun p hp => ?_, hw.chain⟩
        rw [hw.target_eq hp, hsource]
      bound := by simp
      fresh := by simp [Machine.commit]
      latest := by
        intro u hu
        obtain rfl : t = u := Option.some.inj hu
        refine ⟨ht, htarget.symm, fun p hp => ?_⟩
        obtain rfl := Option.some.inj hp
        exact ⟨rfl, rfl⟩ }
  refine hlong.of_isPrefix (History.cut_isPrefix _ _) fun n hn => ?_
  exact History.size_record_le (h := m.history) hn _

end Walk
end Machine

namespace Blueprint

variable {b : Blueprint σ ε}

theorem Yields.walk (hb : b.chart.WellFormed) {m : Machine σ ε} (hm : b.Yields m) : m.Walk := by
  refine (hm.invariant Machine.Walk (fun state _ => .of_empty rfl rfl)
    fun m m' hchart hwalk hchange => ?_).2
  cases hchange with
  | @commit t target now ht htarget =>
    rw [Machine.possible, hchart] at ht
    obtain ⟨hmem, hsource⟩ := hb.of_mem_leaving ht
    rw [← hchart] at hmem
    exact hwalk.commit hmem hsource (Chart.name_of_state? htarget) now
  | move hstate => exact .of_empty rfl rfl
  | limit n => exact hwalk.limitHistory n

/-- The passages in the history of a machine, oldest first, lead along transitions of the
chart, each from where the one before it led to, and the last one into the state in which
the machine stands.  There are no more of them than the bound allows.  A machine without a
latest transition has no passages, and otherwise its latest transition leads into its state
and has the ends of the last passage. -/
theorem Reachable.history_walk (hb : b.Reachable) {m : Machine σ ε} (hm : b.Yields m) :
    (∀ p ∈ m.history.passages,
      ∃ t ∈ b.chart.transitions, p.source = t.source ∧ p.target = t.target) ∧
    (∀ i (hi : i + 1 < m.history.passages.length),
      m.history.passages[i].target = m.history.passages[i + 1].source) ∧
    (∀ p, m.history.passages.getLast? = some p →
      p.target = m.state.name ∧ m.history.path.length = m.history.passages.length + 1 ∧
        m.history.path.getLast? = some m.state.name) ∧
    (∀ n, m.history.limit = some n → m.history.passages.length ≤ n) ∧
    (m.latest = none → m.history.passages = []) ∧
    (∀ t, m.latest = some t → t ∈ b.chart.transitions ∧ t.target = m.state.name ∧
      ∀ p, m.history.passages.getLast? = some p → p.source = t.source ∧ p.target = t.target) := by
  have hw := hm.walk hb.wellFormed
  rw [← hm.chart_eq]
  refine ⟨fun p hp => hw.edges p (List.mem_reverse.mp hp), ?_, fun p hp => ?_, fun n hn => ?_,
    fun hl => ?_, fun t ht => ?_⟩
  · exact List.isChain_iff_getElem.mp (List.isChain_reverse.mpr hw.chain)
  · have htarget := hw.target_eq (History.getLast?_passages _ ▸ hp)
    rw [← htarget]
    exact ⟨rfl, History.path_of_getLast? hp⟩
  · rw [History.length_passages]
    exact hw.bound n hn
  · rw [History.passages, hw.fresh hl, List.reverse_nil]
  · rw [History.getLast?_passages]
    exact hw.latest t ht

theorem entrance_history_walk :
    entrance.Reachable ∧ entrance.Yields .guest ∧
      Machine.guest.history.path = ["street", "hall", "room"] ∧
      Machine.guest.history.path.getLast? = some Machine.guest.state.name := by
  have hwalk := entrance_reachable.history_walk entrance_yields_guest
  have hlast := hwalk.2.2.1 { source := "hall", target := "room", time := .noon } rfl
  exact ⟨entrance_reachable, entrance_yields_guest, rfl, hlast.2.2⟩

end Blueprint
end Turnstile
