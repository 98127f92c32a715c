import Mathlib.Logic.Function.Iterate
import Mathlib.Logic.Relation
import Mathlib.Tactic.ByContra
import Turnstile.Chart.Reach
import Turnstile.Proofs.Chart.WellFormed

/-!
# The search meets what can be reached

`Leads` is a single transition between two names, and a name can be reached when a row of
them leads there.  `Search.Along` is what every turn of a search keeps: the names met can
be reached, and a name that has been met and is no longer in the queue has had all its
transitions followed.  When the queue is empty the names met are therefore closed under
transitions, and so they are exactly the names that can be reached
(`Chart.WellFormed.mem_reachableFrom_iff`).  How many turns that takes is bounded by the number of
transitions (`iterate_turn_start`).
-/

namespace Turnstile

open Relation

variable {σ ε : Type}

namespace Chart

/-- A transition leads from one name to the other, whatever its condition. -/
def Leads (c : Chart σ ε) (source target : String) : Prop :=
  ∃ t ∈ c.transitions, t.source = source ∧ t.target = target

theorem WellFormed.mem_leaving_iff {c : Chart σ ε} (hc : c.WellFormed) {name : String}
    {t : Transition σ ε} : t ∈ c.leaving name ↔ t ∈ c.transitions ∧ t.source = name := by
  constructor
  · exact hc.of_mem_leaving
  · rintro ⟨ht, rfl⟩
    obtain ⟨row, hrow, cell, hcell, ht⟩ := Table.mem_all_iff.mp ht
    have hsource := (hc.filed row hrow cell hcell t ht).1
    have hget : c.table.get? t.source = some row.2 := by
      rw [hsource]
      exact Ledger.get?_of_mem_entries hc.distinct.sources hrow
    rw [leaving, Table.leaving, hget]
    exact Table.mem_ofRow_iff.mpr ⟨cell, hcell, ht⟩

theorem WellFormed.mem_targets_iff {c : Chart σ ε} (hc : c.WellFormed) {source target : String} :
    target ∈ (c.leaving source).map Transition.target ↔ c.Leads source target := by
  rw [List.mem_map]
  constructor
  · rintro ⟨t, ht, rfl⟩
    obtain ⟨ht, hsource⟩ := hc.mem_leaving_iff.mp ht
    exact ⟨t, ht, hsource, rfl⟩
  · rintro ⟨t, ht, hsource, rfl⟩
    exact ⟨t, hc.mem_leaving_iff.mpr ⟨ht, hsource⟩, rfl⟩

end Chart

namespace Search

theorem mem_met_foldl_meet {names : List String} {s : Search} {name : String} :
    name ∈ (names.foldl meet s).met ↔ name ∈ s.met ∨ name ∈ names := by
  induction names generalizing s with
  | nil => simp
  | cons first names ih =>
    have hfirst : name ∈ (s.meet first).met ↔ name ∈ s.met ∨ name = first := by
      unfold meet
      by_cases hmet : first ∈ s.met
      · rw [if_pos hmet]
        constructor
        · exact Or.inl
        · rintro (hname | rfl)
          · exact hname
          · exact hmet
      · rw [if_neg hmet, List.mem_cons]
        exact Or.comm
    rw [List.foldl_cons, ih, hfirst, List.mem_cons, or_assoc]

/-- Of the names that a turn meets, the queue gets those that had not been met. -/
theorem mem_queue_foldl_meet {names : List String} {s : Search} {name : String} :
    name ∈ (names.foldl meet s).queue ↔ name ∈ s.queue ∨ name ∈ names ∧ name ∉ s.met := by
  induction names generalizing s with
  | nil => simp
  | cons first names ih =>
    rw [List.foldl_cons, ih]
    by_cases hmet : first ∈ s.met
    · rw [meet, if_pos hmet, List.mem_cons]
      constructor
      · rintro (hname | ⟨hname, hnot⟩)
        · exact .inl hname
        · exact .inr ⟨.inr hname, hnot⟩
      · rintro (hname | ⟨rfl | hname, hnot⟩)
        · exact .inl hname
        · exact absurd hmet hnot
        · exact .inr ⟨hname, hnot⟩
    · simp only [meet, hmet, if_false, List.mem_append, List.mem_cons, not_or]
      by_cases hfirst : name = first
      · subst hfirst
        simp [hmet]
      · simp [hfirst]

/-- What a search from a name keeps in every turn. -/
structure Along (c : Chart σ ε) (first : String) (s : Search) : Prop where
  first_met : first ∈ s.met
  reached : ∀ name ∈ s.met, ReflTransGen c.Leads first name
  queued : ∀ name ∈ s.queue, name ∈ s.met
  followed : ∀ name ∈ s.met, name ∉ s.queue → ∀ target, c.Leads name target → target ∈ s.met

namespace Along

variable {c : Chart σ ε} {first : String} {s : Search}

theorem start (c : Chart σ ε) (first : String) : Along c first (Search.start first) where
  first_met := List.mem_singleton_self first
  reached := by
    intro name hname
    obtain rfl := List.mem_singleton.mp hname
    exact .refl
  queued := fun name hname => hname
  followed := fun name hname hqueue => absurd hname hqueue

theorem turn (ha : Along c first s) (hc : c.WellFormed) : Along c first (s.turn c) := by
  obtain ⟨met, queue⟩ := s
  cases queue with
  | nil => exact ha
  | cons name queue =>
    have hname := ha.queued name List.mem_cons_self
    refine ⟨mem_met_foldl_meet.mpr (.inl ha.first_met), ?_, ?_, ?_⟩
    · intro n hn
      rcases mem_met_foldl_meet.mp hn with hn | hn
      · exact ha.reached n hn
      · exact (ha.reached name hname).tail (hc.mem_targets_iff.mp hn)
    · intro n hn
      rcases mem_queue_foldl_meet.mp hn with hn | ⟨hn, -⟩
      · exact mem_met_foldl_meet.mpr (.inl (ha.queued n (List.mem_cons_of_mem _ hn)))
      · exact mem_met_foldl_meet.mpr (.inr hn)
    · intro n hn hqueue target htarget
      have hold : n ∈ met := by
        rcases mem_met_foldl_meet.mp hn with hn | hn
        · exact hn
        · by_contra hmet
          exact hqueue (mem_queue_foldl_meet.mpr (.inr ⟨hn, hmet⟩))
      have hrest : n ∉ queue := fun hq => hqueue (mem_queue_foldl_meet.mpr (.inl hq))
      by_cases hsame : n = name
      · subst hsame
        exact mem_met_foldl_meet.mpr (.inr (hc.mem_targets_iff.mpr htarget))
      · have hnot : n ∉ name :: queue := by
          rw [List.mem_cons]
          exact not_or.mpr ⟨hsame, hrest⟩
        exact mem_met_foldl_meet.mpr (.inl (ha.followed n hold hnot target htarget))

theorem mem_met_iff (ha : Along c first s) (hqueue : s.queue = []) {name : String} :
    name ∈ s.met ↔ ReflTransGen c.Leads first name := by
  constructor
  · exact ha.reached name
  · intro hpath
    induction hpath with
    | refl => exact ha.first_met
    | tail _ hleads ih => exact ha.followed _ ih (by simp [hqueue]) _ hleads

end Along

theorem turn_of_queue_eq_nil {c : Chart σ ε} {s : Search} (hqueue : s.queue = []) :
    s.turn c = s := by
  rw [turn, hqueue]

/-- As many turns as the weight of a search are all its turns. -/
theorem iterate_turn {c : Chart σ ε} {n : Nat} {s : Search} (hn : s.weight c ≤ n) :
    ((turn c)^[n] s).queue = [] ∧ ((turn c)^[n] s).met = c.search s := by
  induction n generalizing s with
  | zero =>
    have hqueue : s.queue = [] := by
      have hlength : s.queue.length = 0 := by
        unfold weight at hn
        omega
      exact List.length_eq_zero_iff.mp hlength
    rw [Chart.search, if_pos hqueue]
    exact ⟨hqueue, rfl⟩
  | succ n ih =>
    by_cases hqueue : s.queue = []
    · rw [Function.iterate_fixed (turn_of_queue_eq_nil hqueue), Chart.search, if_pos hqueue]
      exact ⟨hqueue, rfl⟩
    · have hlt := weight_turn_lt (c := c) hqueue
      rw [Function.iterate_succ_apply, Chart.search, if_neg hqueue]
      exact ih (by omega)

theorem Along.iterate_turn {c : Chart σ ε} {first : String} {s : Search} (ha : Along c first s)
    (hc : c.WellFormed) (n : Nat) : Along c first ((Search.turn c)^[n] s) := by
  induction n with
  | zero => exact ha
  | succ n ih =>
    rw [Function.iterate_succ_apply']
    exact ih.turn hc

/-- A search starts with one name in its queue, and meets at most the targets there are. -/
theorem weight_start_le (c : Chart σ ε) (first : String) :
    (start first).weight c ≤ c.transitions.length + 1 := by
  have hunmet : unmet (c.transitions.map Transition.target) [first] ≤ c.transitions.length := by
    have hcount := List.countP_le_length (p := fun name => name ∉ [first])
      (l := c.transitions.map Transition.target)
    rwa [List.length_map] at hcount
  show unmet _ [first] + 1 ≤ _
  omega

theorem iterate_turn_start (c : Chart σ ε) (first : String) :
    ((turn c)^[c.transitions.length + 1] (start first)).queue = [] ∧
      ((turn c)^[c.transitions.length + 1] (start first)).met = c.reachableFrom first :=
  iterate_turn (weight_start_le c first)

end Search

theorem Chart.WellFormed.mem_reachableFrom_iff {c : Chart σ ε} (hc : c.WellFormed)
    {first name : String} :
    name ∈ c.reachableFrom first ↔ ReflTransGen c.Leads first name := by
  obtain ⟨hqueue, hmet⟩ := Search.iterate_turn_start c first
  have halong := (Search.Along.start c first).iterate_turn hc (c.transitions.length + 1)
  rw [← hmet]
  exact halong.mem_met_iff hqueue

end Turnstile
