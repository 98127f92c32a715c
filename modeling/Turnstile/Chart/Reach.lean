import Turnstile.Chart.Basic

/-!
Which states of a chart can be reached, conditions aside.

The search keeps the names that it has met and a queue of those among them whose
transitions it has not followed yet.  A turn takes the first name off the queue and
meets the targets of its transitions; a name that has been met before is passed over.
`weight` counts what is still to be met and what is in the queue.  Meeting a name only
moves it from one to the other, and every turn takes a name away, so the search comes to
an end on every chart, whatever circles its transitions make.
-/

namespace Turnstile

variable {σ ε : Type}

/-- A search under way: the names that have been met, latest first, and those of them
whose transitions have not been followed. -/
structure Search where
  met : List String
  queue : List String
  deriving DecidableEq, Repr

namespace Search

/-- The search that has met one name. -/
def start (name : String) : Search := { met := [name], queue := [name] }

/-- Meets a name and puts it in the queue, unless it has been met before. -/
def meet (s : Search) (name : String) : Search :=
  if name ∈ s.met then s else { met := name :: s.met, queue := s.queue ++ [name] }

/-- Takes a name off the queue and meets the targets of its transitions. -/
def turn (c : Chart σ ε) (s : Search) : Search :=
  match s.queue with
  | [] => s
  | name :: queue => ((c.leaving name).map Transition.target).foldl meet { s with queue }

/-- How many of the names have not been met, counted as often as they are listed. -/
def unmet (names met : List String) : Nat := names.countP fun name => name ∉ met

/-- How many targets of the chart are still to be met, and how many names are in the
queue. -/
def weight (c : Chart σ ε) (s : Search) : Nat :=
  unmet (c.transitions.map Transition.target) s.met + s.queue.length

theorem unmet_cons_lt {names met : List String} {name : String} (hname : name ∈ names)
    (hmet : name ∉ met) : unmet names (name :: met) < unmet names met := by
  obtain ⟨before, after, rfl⟩ := List.append_of_mem hname
  have hmono : ∀ others : List String,
      others.countP (fun n => n ∉ name :: met) ≤ others.countP (fun n => n ∉ met) := by
    intro others
    apply List.countP_mono_left
    intro n _ hn
    simp only [List.mem_cons, not_or, decide_eq_true_eq] at hn ⊢
    exact hn.2
  have hbefore := hmono before
  have hafter := hmono after
  simp only [unmet, List.countP_append, List.countP_cons, List.mem_cons_self, hmet,
    not_true_eq_false, not_false_eq_true, decide_true, decide_false]
  simp only [Bool.false_eq_true, if_false, if_true]
  omega

theorem weight_meet_le {c : Chart σ ε} {name : String}
    (hname : name ∈ c.transitions.map Transition.target) (s : Search) :
    (s.meet name).weight c ≤ s.weight c := by
  unfold meet
  by_cases hmet : name ∈ s.met
  · exact Nat.le_of_eq (congrArg (weight c) (if_pos hmet))
  · have hlt := unmet_cons_lt hname hmet
    simp only [hmet, if_false, weight, List.length_append, List.length_singleton]
    omega

theorem weight_foldl_meet_le {c : Chart σ ε} {names : List String}
    (hnames : ∀ name ∈ names, name ∈ c.transitions.map Transition.target) (s : Search) :
    (names.foldl meet s).weight c ≤ s.weight c := by
  induction names generalizing s with
  | nil => exact Nat.le_refl _
  | cons name names ih =>
    have hrest := ih (fun n hn => hnames n (List.mem_cons_of_mem _ hn)) (s.meet name)
    exact Nat.le_trans hrest (weight_meet_le (hnames name List.mem_cons_self) s)

theorem weight_turn_lt {c : Chart σ ε} {s : Search} (hqueue : s.queue ≠ []) :
    (s.turn c).weight c < s.weight c := by
  obtain ⟨met, queue⟩ := s
  cases queue with
  | nil => exact absurd rfl hqueue
  | cons name queue =>
    have hle : (((c.leaving name).map Transition.target).foldl meet { met, queue }).weight c ≤
        weight c { met, queue } := by
      apply weight_foldl_meet_le
      intro target htarget
      obtain ⟨t, ht, rfl⟩ := List.mem_map.mp htarget
      exact List.mem_map_of_mem (Table.mem_all_of_mem_leaving ht)
    have hlt : weight c { met, queue } < weight c { met, queue := name :: queue } := by
      simp only [weight, List.length_cons]
      omega
    exact Nat.lt_of_le_of_lt hle hlt

end Search

namespace Chart

/-- Goes on with a search until its queue is empty, and answers with the names met. -/
def search (c : Chart σ ε) (s : Search) : List String :=
  if s.queue = [] then s.met else c.search (s.turn c)
termination_by s.weight c
decreasing_by exact Search.weight_turn_lt ‹_›

/-- The names of the states that can be reached from a state, conditions aside. -/
def reachableFrom (c : Chart σ ε) (name : String) : List String := c.search (Search.start name)

end Chart
end Turnstile
