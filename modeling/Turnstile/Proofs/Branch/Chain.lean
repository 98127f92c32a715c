import Turnstile.Proofs.Branch.Fork

/-!
# Building a chain of cases

A chain leads from a state to one target for each of its cases, and may end in a target for
when the condition of the last case fails.  Each call of a chain goes on from the branch that
the call before it has led to, so the branches of a new outline come to stand one below the
other (`Outline.spine`).  A call at the end of such a row either adds a branch there or
completes the one that is there, and the chain is built in the order of its cases
(`Handle.run_chain`, `Handle.run_chainElse`).
-/

namespace Turnstile

variable {σ ε : Type}

/-- A condition, and where it leads to. -/
structure Case (σ ε : Type) where
  condition : Condition σ ε
  target : String

namespace Handle

/-- Adds a branch for each case, one below the other, with a condition and a target of its
own. -/
def cases (h : Handle) : List (Case σ ε) → Build σ ε Handle
  | [] => pure h
  | case :: rest => do
    let next ← h.otherwiseIf case.condition
    let led ← next.goTo case.target
    led.cases rest

/-- Leads from a state to the targets of the cases. -/
def chain (h : Handle) (source : String) : List (Case σ ε) → Build σ ε Handle
  | [] => h.startAt source
  | case :: rest => do
    let start ← h.startAt source
    let guarded ← start.onlyIf case.condition
    let led ← guarded.goTo case.target
    led.cases rest

/-- Leads from a state to the targets of the cases, and to another one when the condition of
the last case fails. -/
def chainElse (h : Handle) (source : String) (cases : List (Case σ ε)) (target : String) :
    Build σ ε Unit := do
  let last ← h.chain source cases
  let other ← last.otherwise
  let _ ← other.goTo target
  return ()

end Handle

namespace Transition

/-- The transition of a case. -/
def ofCase (source : String) (case : Case σ ε) : Transition σ ε :=
  { source, target := case.target, condition := case.condition }

/-- The transition for when a condition fails. -/
def ofElse (source : String) (c : Condition σ ε) (target : String) : Transition σ ε :=
  { source, target, condition := c, negate := true }

/-- The transitions of a chain of cases, in order. -/
def chain (source : String) (cases : List (Case σ ε)) : List (Transition σ ε) :=
  cases.map (ofCase source)

/-- The transitions of a chain of cases that goes elsewhere when the last one fails. -/
def chainElse (source : String) (earlier : List (Case σ ε)) (last : Case σ ε) (target : String) :
    List (Transition σ ε) :=
  chain source (earlier ++ [last]) ++ [ofElse source last.condition target]

end Transition

/-! ## Branches one below the other -/

namespace Outline

/-- Branches that stand one below the other, numbered from `n` on. -/
def spine (n : Nat) : List (Branch σ ε) → Outline σ ε
  | [] => .nil
  | b :: bs => .node n b (spine (n + 1) bs) .nil

theorem size_spine (n : Nat) (bs : List (Branch σ ε)) : (spine n bs).size = bs.length := by
  induction bs generalizing n with
  | nil => rfl
  | cons b bs ih => rw [spine, size, ih, size, List.length_cons]

theorem transitions_spine (n : Nat) (bs : List (Branch σ ε)) :
    (spine n bs).transitions = bs.filterMap Branch.transition? := by
  induction bs generalizing n with
  | nil => rfl
  | cons b bs ih =>
    rw [spine, transitions, ih, transitions, List.append_nil, List.filterMap_cons]
    cases b.transition? <;> rfl

theorem transitionsFrom_spine (b : Branch σ ε) (bs : List (Branch σ ε)) :
    (spine 0 (b :: bs)).transitionsFrom Handle.root =
      (b :: bs).filterMap Branch.transition? := by
  rw [← transitions_spine 0, spine, transitions, transitions, List.append_nil]
  rfl

section Last

variable (n : Nat) (bs : List (Branch σ ε)) (b : Branch σ ε)

/-- The first branch of a row is not the one below the others, which is counted alike from the
second branch. -/
theorem last_of_cons (c : Branch σ ε) :
    n ≠ n + (c :: bs).length ∧ n + (c :: bs).length = n + 1 + bs.length := by
  rw [List.length_cons]
  omega

theorem find?_spine : (spine n (bs ++ [b])).find? (n + bs.length) = some (b, .nil) := by
  induction bs generalizing n with
  | nil => exact if_pos rfl
  | cons c bs ih =>
    obtain ⟨hfirst, hlast⟩ := last_of_cons n bs c
    rw [List.cons_append, spine, find?, if_neg hfirst, hlast, ih]

theorem grow_spine (number : Nat) (b' : Branch σ ε) (hnumber : number = n + bs.length + 1) :
    (spine n (bs ++ [b])).grow (n + bs.length) number b' = spine n (bs ++ [b] ++ [b']) := by
  subst hnumber
  induction bs generalizing n with
  | nil => exact if_pos rfl
  | cons c bs ih =>
    obtain ⟨hfirst, hlast⟩ := last_of_cons n bs c
    rw [List.cons_append, spine, grow, if_neg hfirst, hlast, ih]
    rfl

theorem update_spine (f : Branch σ ε → Branch σ ε) :
    (spine n (bs ++ [b])).update (n + bs.length) f = spine n (bs ++ [f b]) := by
  induction bs generalizing n with
  | nil => exact if_pos rfl
  | cons c bs ih =>
    obtain ⟨hfirst, hlast⟩ := last_of_cons n bs c
    rw [List.cons_append, spine, update, if_neg hfirst, hlast, ih]
    rfl

end Last
end Outline

/-! ## Calls on the last branch -/

/-- The handle of the branch that stands below all of these in a row. -/
def Handle.after (bs : List (Branch σ ε)) : Handle := { number := bs.length }

namespace Outline

variable (bs : List (Branch σ ε)) (b : Branch σ ε)

theorem branch_spine : (spine 0 (bs ++ [b])).branch (.after bs) = b := by
  have hfound := find?_spine 0 bs b
  rw [Nat.zero_add] at hfound
  rw [branch, Handle.after, hfound]

theorem spawn_spine (b' : Branch σ ε) :
    (spine 0 (bs ++ [b])).spawn (.after bs) b' =
      (.after (bs ++ [b]), spine 0 (bs ++ [b] ++ [b'])) := by
  have hsize : (spine 0 (bs ++ [b])).size = 0 + bs.length + 1 := by
    rw [size_spine, List.length_append, Nat.zero_add]
    rfl
  have hgrown := grow_spine 0 bs b _ b' hsize
  rw [Nat.zero_add] at hgrown
  rw [spawn, Handle.after, Handle.after, hgrown, size_spine]

theorem revise_spine (f : Branch σ ε → Branch σ ε) :
    (spine 0 (bs ++ [b])).revise (.after bs) f = (.after bs, spine 0 (bs ++ [f b])) := by
  have hupdated := update_spine 0 bs b f
  rw [Nat.zero_add] at hupdated
  rw [revise, Handle.after, hupdated]

end Outline

namespace Branch

/-- A branch that has just its source. -/
def start (source : String) : Branch σ ε := { source := some source }

/-- A branch that has just its source and its condition. -/
def guarded (source : String) (c : Condition σ ε) : Branch σ ε :=
  { source := source, condition := c }

/-- The branch of a case. -/
def ofCase (source : String) (case : Case σ ε) : Branch σ ε :=
  { source := source, target := case.target, condition := case.condition }

end Branch

namespace Handle

open Outline

variable {bs : List (Branch σ ε)} {b : Branch σ ε}

/-- A call that adds the branch of a case without its target, and then the target. -/
theorem run_led_spine {x : Build σ ε Handle} {source : String} {case : Case σ ε}
    (hx : Id.run (x.runOn (spine 0 (bs ++ [b]))) =
      (.ok ((spine 0 (bs ++ [b])).spawn (.after bs) (.guarded source case.condition)).1,
        ((spine 0 (bs ++ [b])).spawn (.after bs) (.guarded source case.condition)).2))
    {α : Type} (f : Handle → Build σ ε α) :
    Id.run ((x >>= fun i => i.goTo case.target >>= f).runOn (spine 0 (bs ++ [b]))) =
      Id.run ((f (.after (bs ++ [b]))).runOn
        (spine 0 (bs ++ [b] ++ [Branch.ofCase source case]))) := by
  rw [spawn_spine] at hx
  rw [BuildT.run_bind_of_run hx]
  apply BuildT.run_bind_of_run
  rw [goTo, BuildT.run_call, Outline.goTo, branch_spine, revise_spine]
  rfl

/-- Cases that are added at the end of a row come to stand there in their order. -/
theorem run_cases (bs : List (Branch σ ε)) {source : String} (hb : b.source = some source)
    (cases : List (Case σ ε)) :
    Id.run (((after bs).cases cases).runOn (spine 0 (bs ++ [b]))) =
      (.ok { number := bs.length + cases.length },
        spine 0 (bs ++ [b] ++ cases.map (Branch.ofCase source))) := by
  induction cases generalizing bs b with
  | nil =>
    rw [List.map_nil, List.append_nil]
    rfl
  | cons case rest ih =>
    have hadded : Id.run (((after bs).otherwiseIf case.condition : Build σ ε Handle).runOn
        (spine 0 (bs ++ [b]))) =
        (.ok ((spine 0 (bs ++ [b])).spawn (.after bs) (.guarded source case.condition)).1,
          ((spine 0 (bs ++ [b])).spawn (.after bs) (.guarded source case.condition)).2) := by
      rw [otherwiseIf, BuildT.run_call, Outline.otherwiseIf, branch_spine, hb]
      rfl
    have hrest := ih (b := Branch.ofCase source case) (bs ++ [b]) rfl
    rw [cases, run_led_spine hadded, hrest, List.length_append, List.length_singleton,
      List.length_cons, List.map_cons, Nat.add_assoc, Nat.add_comm 1, List.append_assoc _ [_],
      List.singleton_append]

/-- The branches of a chain: one of which nothing is known, one that has just the source, and
one for each case. -/
def branches (source : String) (cases : List (Case σ ε)) : List (Branch σ ε) :=
  {} :: .start source :: cases.map (Branch.ofCase source)

theorem run_chain (source : String) (cases : List (Case σ ε)) :
    Id.run ((root.chain source cases).runOn Outline.root) =
      (.ok { number := cases.length + 1 }, spine 0 (branches source cases)) := by
  let blank : Branch σ ε := {}
  have hstart : Id.run ((root.startAt source : Build σ ε Handle).runOn Outline.root) =
      (.ok (after [blank]), spine 0 ([blank] ++ [.start source])) := rfl
  cases cases with
  | nil => exact hstart
  | cons case rest =>
    let row : Outline σ ε := spine 0 ([blank] ++ [.start source])
    have hguarded : Id.run (((after [blank]).onlyIf case.condition : Build σ ε Handle).runOn row) =
        (.ok (row.spawn (.after [blank]) (.guarded source case.condition)).1,
          (row.spawn (.after [blank]) (.guarded source case.condition)).2) := rfl
    have hrest := run_cases (b := Branch.ofCase source case) ([blank] ++ [.start source]) rfl rest
    rw [chain, BuildT.run_bind_of_run hstart, run_led_spine hguarded, hrest]
    rw [List.length_cons, Nat.add_right_comm, Nat.add_comm]
    rfl

theorem transitionsFrom_branches (source : String) (cases : List (Case σ ε))
    (more : List (Branch σ ε)) :
    (spine 0 (branches source cases ++ more)).transitionsFrom root =
      Transition.chain source cases ++ more.filterMap Branch.transition? := by
  have hcases : (cases.map (Branch.ofCase source)).filterMap Branch.transition? =
      Transition.chain source cases := by
    rw [List.filterMap_map, Transition.chain, ← List.filterMap_eq_map]
    rfl
  rw [branches, List.cons_append, transitionsFrom_spine, ← hcases, ← List.filterMap_append]
  rfl

theorem run_chainElse (source : String) (earlier : List (Case σ ε)) (last : Case σ ε)
    (target : String) :
    ∃ o : Outline σ ε,
      Id.run ((root.chainElse source (earlier ++ [last]) target).runOn Outline.root) =
        (.ok (), o) ∧
      o.transitionsFrom root = Transition.chainElse source earlier last target := by
  let bs : List (Branch σ ε) := branches source earlier
  let b : Branch σ ε := .ofCase source last
  let other : Branch σ ε := { b.other with target := some target }
  have hrow : branches source (earlier ++ [last]) = bs ++ [b] := by
    rw [branches, List.map_append]
    rfl
  have hlength : (earlier ++ [last]).length + 1 = bs.length := by
    simp only [bs, branches, List.length_cons, List.length_append, List.length_map,
      List.length_nil]
  have hchain := run_chain source (earlier ++ [last])
  rw [hrow, hlength] at hchain
  have hother : Id.run (((after bs).otherwise : Build σ ε Handle).runOn (spine 0 (bs ++ [b]))) =
      (.ok (after (bs ++ [b])), spine 0 (bs ++ [b] ++ [b.other])) := by
    rw [run_otherwise (by rw [branch_spine]; rfl), branch_spine, spawn_spine]
  have hled : Id.run (((after (bs ++ [b])).goTo target : Build σ ε Handle).runOn
      (spine 0 (bs ++ [b] ++ [b.other]))) =
      (.ok (after (bs ++ [b])), spine 0 (bs ++ [b] ++ [other])) := by
    rw [goTo, BuildT.run_call, Outline.goTo, branch_spine, revise_spine]
    rfl
  refine ⟨spine 0 (bs ++ [b] ++ [other]), ?_, ?_⟩
  · rw [chainElse, BuildT.run_bind_of_run hchain]
    show Id.run (((after bs).otherwise >>= _ : Build σ ε Unit).runOn _) = _
    rw [BuildT.run_bind_of_run hother, BuildT.run_bind_of_run hled]
    rfl
  · rw [← hrow, transitionsFrom_branches]
    rfl

end Handle
end Turnstile
