import Mathlib.Data.List.Forall2
import Turnstile.Proofs.Machine.Run

/-!
# What a caller sees

A caller sets a machine going by requests, one after the other, and sees of each what it
answers, what the handler remembers then and in which state the machine stands.  Nothing
bounds a run, so a row of requests is served within a budget of steps for each run, and
is not served when one of them needs more.

Two callers may see different things and still take them for the same: a `Leeway` says
which.  Sessions that stay in lockstep under each of some requests serve the whole row
alike (`Lockstep.serveAll`), and coupled machines do so for every row.
-/

namespace Turnstile

variable {σ ε : Type}

/-- How far a request drives a machine. -/
inductive Drive where
  | step
  | run

/-- A call that drives a machine, with the handler and the event that it is given. -/
structure Request (σ ε : Type) where
  drive : Drive
  handler : Handler σ ε
  event : Option ε := none
  /-- What the caller has made of the handler's memory since the last call. -/
  prepare : σ → σ := id

inductive Reply where
  | step (result : Except Fault StepResult)
  | run (result : Except Fault Outcome)

/-- What a caller sees of a request. -/
structure Receipt (σ : Type) where
  reply : Reply
  memory : σ
  state : State

namespace Session

/-- Serves a request at the times of the clock, if a run comes to its end within the
budget. -/
def serve (clock : Nat → Instant) (budget : Nat) (q : Request σ ε) (s : Session σ ε) :
    Option (Reply × Session σ ε) :=
  let ready := { s with memory := q.prepare s.memory }
  match q.drive with
  | .step =>
    let (result, s') := ready.step q.handler (clock 0) q.event
    some (.step result, s')
  | .run => (ready.run q.handler clock q.event budget).map fun r => (.run r.1, r.2)

/-- Serves requests one after the other.  The clock counts the requests and the steps of
each. -/
def serveAll (clock : Nat → Nat → Instant) (budget : Nat) :
    List (Request σ ε) → Session σ ε → Option (List (Receipt σ) × Session σ ε)
  | [], s => some ([], s)
  | q :: qs, s =>
    (s.serve (clock 0) budget q).bind fun served =>
      (serveAll (fun n => clock (n + 1)) budget qs served.2).map fun rest =>
        ({ reply := served.1, memory := served.2.memory, state := served.2.machine.state } ::
          rest.1, rest.2)

end Session

/-! ## What callers overlook -/

/-- Which faults, memories and times a caller takes for the same. -/
structure Leeway (σ : Type) where
  fault : Fault → Fault → Prop
  memory : σ → σ → Prop
  time : Instant → Instant → Prop
  fault_refl : ∀ e, fault e e

namespace Leeway

/-- A caller who overlooks nothing but the times. -/
def times : Leeway σ :=
  { fault := Eq, memory := Eq, time := fun _ _ => True, fault_refl := fun _ => rfl }

variable (L : Leeway σ)

/-- The answers are equal, or they are faults that are taken for the same. -/
inductive Answers {α : Type} : Except Fault α → Except Fault α → Prop
  | ok (a : α) : Answers (.ok a) (.ok a)
  | error {e e' : Fault} (he : L.fault e e') : Answers (.error e) (.error e')

inductive Replies : Reply → Reply → Prop
  | step {r r' : Except Fault StepResult} (hr : L.Answers r r') : Replies (.step r) (.step r')
  | run {r r' : Except Fault Outcome} (hr : L.Answers r r') : Replies (.run r) (.run r')

structure Receipts (x y : Receipt σ) : Prop where
  reply : L.Replies x.reply y.reply
  memory : L.memory x.memory y.memory
  state : x.state = y.state

variable {L}

theorem Answers.refl {α : Type} (r : Except Fault α) : L.Answers r r := by
  cases r with
  | error e => exact .error (L.fault_refl e)
  | ok a => exact .ok a

/-- Steps with answers that are taken for the same end a run alike. -/
theorem Answers.ending {r r' : Except Fault StepResult} (hr : L.Answers r r') (count : Nat)
    (state : State) :
    Option.Rel L.Answers (Session.ending count state r) (Session.ending count state r') := by
  cases hr with
  | error he => exact .some (.error he)
  | ok result =>
    cases Session.ending count state (.ok result) with
    | none => exact .none
    | some r => exact .some (Answers.refl r)

/-- A caller who overlooks no fault takes only equal answers for the same. -/
theorem Answers.eq (hfault : ∀ e e', L.fault e e' → e = e') {α : Type} {r r' : Except Fault α}
    (hr : L.Answers r r') : r = r' := by
  cases hr with
  | ok a => rfl
  | error he => exact congrArg _ (hfault _ _ he)

/-- A caller who overlooks neither faults nor memories takes only equal receipts for the
same. -/
theorem Receipts.eq (hfault : ∀ e e', L.fault e e' → e = e')
    (hmemory : ∀ x y, L.memory x y → x = y) {x y : Receipt σ} (hxy : L.Receipts x y) : x = y := by
  obtain ⟨xreply, xmemory, xstate⟩ := x
  obtain ⟨yreply, ymemory, ystate⟩ := y
  obtain ⟨hreply, hremembered, rfl⟩ := hxy
  obtain rfl := hmemory _ _ hremembered
  cases hreply with
  | step hr => rw [hr.eq hfault]
  | run hr => rw [hr.eq hfault]

theorem eq_of_forall₂_receipts (hfault : ∀ e e', L.fault e e' → e = e')
    (hmemory : ∀ x y, L.memory x y → x = y) {xs ys : List (Receipt σ)}
    (hxy : List.Forall₂ L.Receipts xs ys) : xs = ys :=
  List.forall₂_eq_eq_eq ▸ hxy.imp fun _ _ => Receipts.eq hfault hmemory

end Leeway

/-! ## Sessions in lockstep -/

namespace Session

/-- Neither comes to an end, or both do, with related answers, and leave related
sessions. -/
def Matching {α : Type} (A : α → α → Prop) (P : Session σ ε → Session σ ε → Prop) :
    Option (α × Session σ ε) → Option (α × Session σ ε) → Prop :=
  Option.Rel fun x y => A x.1 y.1 ∧ P x.2 y.2

theorem Matching.map {α β : Type} {A : α → α → Prop} {B : β → β → Prop}
    {P : Session σ ε → Session σ ε → Prop} {x y : Option (α × Session σ ε)}
    (hxy : Matching A P x y) {f g : α → β} (hfg : ∀ a b, A a b → B (f a) (g b)) :
    Matching B P (x.map fun r => (f r.1, r.2)) (y.map fun r => (g r.1, r.2)) := by
  cases hxy with
  | none => exact .none
  | some hr => exact .some ⟨hfg _ _ hr.1, hr.2⟩

theorem Matching.bind {α β : Type} {A : α → α → Prop} {B : β → β → Prop}
    {P : Session σ ε → Session σ ε → Prop} {x y : Option (α × Session σ ε)}
    (hxy : Matching A P x y) {f g : α × Session σ ε → Option (β × Session σ ε)}
    (hfg : ∀ a b s u, A a b → P s u → Matching B P (f (a, s)) (g (b, u))) :
    Matching B P (x.bind f) (y.bind g) := by
  cases hxy with
  | none => exact .none
  | some hr => exact hfg _ _ _ _ hr.1 hr.2

theorem Matching.imp {α : Type} {A B : α → α → Prop} {P : Session σ ε → Session σ ε → Prop}
    {x y : Option (α × Session σ ε)} (hxy : Matching A P x y) (hAB : ∀ a b, A a b → B a b) :
    Matching B P x y := by
  cases hxy with
  | none => exact .none
  | some hr => exact .some ⟨hAB _ _ hr.1, hr.2⟩

theorem Matching.imp_sessions {α : Type} {A : α → α → Prop}
    {P Q : Session σ ε → Session σ ε → Prop} {x y : Option (α × Session σ ε)}
    (hxy : Matching A P x y) (hPQ : ∀ s u, P s u → Q s u) : Matching A Q x y := by
  cases hxy with
  | none => exact .none
  | some hr => exact .some ⟨hr.1, hPQ _ _ hr.2⟩

theorem Matching.map_fst_eq {α : Type} {P : Session σ ε → Session σ ε → Prop}
    {x y : Option (α × Session σ ε)} (hxy : Matching Eq P x y) :
    x.map Prod.fst = y.map Prod.fst := by
  cases hxy with
  | none => rfl
  | some hr => exact congrArg some hr.1

/-- A relation of sessions that a request keeps: related sessions stand in one state and
remember what counts as the same, they answer a step alike, and whatever the caller
prepares and every step leaves them related. -/
structure Lockstep (L : Leeway σ) (P : Session σ ε → Session σ ε → Prop) (q : Request σ ε) :
    Prop where
  state : ∀ {s u}, P s u → s.machine.state = u.machine.state
  memory : ∀ {s u}, P s u → L.memory s.memory u.memory
  prepare : ∀ {s u}, P s u → P { s with memory := q.prepare s.memory }
    { u with memory := q.prepare u.memory }
  step : ∀ {s u}, P s u → ∀ {now now'}, L.time now now' →
    L.Answers (s.step q.handler now q.event).1 (u.step q.handler now' q.event).1 ∧
      P (s.step q.handler now q.event).2 (u.step q.handler now' q.event).2

variable {L : Leeway σ} {P : Session σ ε → Session σ ε → Prop} {q : Request σ ε}
  {s u : Session σ ε}

theorem Lockstep.runFrom (hq : Lockstep L P q) (hs : P s u) {clock clock' : Nat → Instant}
    (hclock : ∀ n, L.time (clock n) (clock' n)) (taken budget : Nat) :
    Matching L.Answers P (Session.runFrom q.handler clock q.event taken budget s)
      (Session.runFrom q.handler clock' q.event taken budget u) := by
  induction budget generalizing taken s u with
  | zero => exact .none
  | succ budget ih =>
    obtain ⟨hresult, hnext⟩ := hq.step hs (hclock taken)
    have hend := hresult.ending (taken + 1)
      (u.step q.handler (clock' taken) q.event).2.machine.state
    rw [runFrom_succ, runFrom_succ, hq.state hnext]
    -- the step ends both runs, in the same way, or neither
    generalize ending _ _ (s.step q.handler (clock taken) q.event).1 = first at hend ⊢
    generalize ending _ _ (u.step q.handler (clock' taken) q.event).1 = second at hend ⊢
    cases hend with
    | none => exact ih hnext (taken + 1)
    | some hr => exact .some ⟨hr, hnext⟩

theorem Lockstep.serve (hq : Lockstep L P q) (hs : P s u) {clock clock' : Nat → Instant}
    (hclock : ∀ n, L.time (clock n) (clock' n)) (budget : Nat) :
    Matching L.Replies P (s.serve clock budget q) (u.serve clock' budget q) := by
  have hready := hq.prepare hs
  unfold Session.serve
  cases q.drive with
  | step =>
    obtain ⟨hresult, hnext⟩ := hq.step hready (hclock 0)
    exact .some ⟨.step hresult, hnext⟩
  | run => exact (hq.runFrom hready hclock 0 budget).map fun _ _ => .run

/-- Sessions in lockstep serve a row of requests alike. -/
theorem Lockstep.serveAll {qs : List (Request σ ε)} (hqs : ∀ q ∈ qs, Lockstep L P q)
    (hs : P s u) {clock clock' : Nat → Nat → Instant}
    (hclock : ∀ i n, L.time (clock i n) (clock' i n)) (budget : Nat) :
    Matching (List.Forall₂ L.Receipts) P (s.serveAll clock budget qs)
      (u.serveAll clock' budget qs) := by
  induction qs generalizing clock clock' s u with
  | nil => exact .some ⟨.nil, hs⟩
  | cons q qs ih =>
    obtain ⟨hq, hrow⟩ := List.forall_mem_cons.mp hqs
    refine (hq.serve hs (hclock 0) budget).bind fun reply reply' s' u' hreply hnext => ?_
    refine (ih hrow hnext fun i n => hclock (i + 1) n).map fun rest rest' hrest => ?_
    exact .cons ⟨hreply, hq.memory hnext, hq.state hnext⟩ hrest

end Session

/-! ## Coupled machines -/

namespace Machine.Coupling

open Session

variable {P : Machine σ ε → Machine σ ε → Prop} {s u : Session σ ε}

theorem lockstep (hP : Machine.Coupling P) (q : Request σ ε) :
    Lockstep Leeway.times (Paired P) q where
  state := fun hs => hP.state hs.machine
  memory := fun hs => hs.memory
  prepare := fun hs => ⟨hs.machine, congrArg q.prepare hs.memory⟩
  step := by
    intro s u hs now now' _
    obtain ⟨hresult, hnext⟩ := hP.step hs q.handler q.event now now'
    rw [hresult]
    exact ⟨Leeway.Answers.refl _, hnext⟩

theorem serveAll (hP : Machine.Coupling P) (hs : Paired P s u)
    (clock clock' : Nat → Nat → Instant) (budget : Nat) (qs : List (Request σ ε)) :
    Matching Eq (Paired P) (s.serveAll clock budget qs) (u.serveAll clock' budget qs) := by
  refine (Lockstep.serveAll (fun q _ => hP.lockstep q) hs (fun _ _ => trivial) budget).imp ?_
  exact fun _ _ => Leeway.eq_of_forall₂_receipts (fun _ _ => id) fun _ _ => id

end Machine.Coupling
end Turnstile
