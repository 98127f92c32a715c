import Mathlib.Data.List.DropRight
import Turnstile.Proofs.History
import Turnstile.Proofs.Machine.Request

/-!
# Bounds on histories, now or later

A history that is recorded into under a bound ends as the history without the bound would,
cut to its latest passages: cutting in between makes no difference to what is left in the
end (`History.latest_foldl_record`).  Setting a bound comes to the same as recording all
passages anew under it (`History.foldl_record_bounded`).  A machine may therefore be given a
bound before it goes somewhere or when it has arrived.  The two machines are coupled all the
way (`Machine.Later.coupling`), since no step looks at the history.
-/

namespace Turnstile

variable {σ ε : Type}

namespace History

/-- Cutting what stands behind changes nothing of what a cut leaves. -/
theorem cut_append_cut {α : Type} (limit : Option Nat) (xs ys : List α) :
    cut limit (xs ++ cut limit ys) = cut limit (xs ++ ys) := by
  cases limit with
  | none => rfl
  | some n =>
    have hmin : min (n - xs.length) n = n - xs.length := Nat.min_eq_left (Nat.sub_le _ _)
    rw [cut_some, cut_some, cut_some, List.take_append, List.take_append, List.take_take, hmin]

@[simp] theorem limit_foldl_record (h : History) (ps : List Passage) :
    (ps.foldl record h).limit = h.limit := by
  induction ps generalizing h with
  | nil => rfl
  | cons p ps ih => rw [List.foldl_cons, ih, limit_record]

/-- The first passage that is recorded cuts a history that has more than its bound, so at
least one has to be recorded. -/
theorem latest_foldl_record (h : History) {ps : List Passage} (hps : ps ≠ []) :
    (ps.foldl record h).latest = cut h.limit (ps.reverse ++ h.latest) := by
  induction ps generalizing h with
  | nil => exact absurd rfl hps
  | cons p ps ih =>
    have hmiddle : (p :: ps).reverse ++ h.latest = ps.reverse ++ p :: h.latest := by
      rw [List.reverse_cons, List.append_assoc, List.singleton_append]
    rw [List.foldl_cons, hmiddle]
    by_cases hlast : ps = []
    · rw [hlast]
      rfl
    · rw [ih (h.record p) hlast, limit_record, record, cut_append_cut]

theorem passages_foldl_record_of_unbounded {h : History} (hl : h.limit = none)
    (ps : List Passage) : (ps.foldl record h).passages = h.passages ++ ps := by
  induction ps generalizing h with
  | nil => rw [List.foldl_nil, List.append_nil]
  | cons p ps ih =>
    have hrest : (h.record p).limit = none := hl
    rw [List.foldl_cons, ih hrest, passages_record_of_unbounded hl, List.append_assoc,
      List.singleton_append]

theorem passages_foldl_record_of_bounded {h : History} {n : Nat} (hl : h.limit = some n)
    {ps : List Passage} (hps : ps ≠ []) :
    (ps.foldl record h).passages = (h.passages ++ ps).rtake n := by
  have hreverse : (h.passages ++ ps).reverse = ps.reverse ++ h.latest := by
    rw [passages, List.reverse_append, List.reverse_reverse]
  rw [passages, latest_foldl_record h hps, hl, cut_some, List.rtake_eq_reverse_take_reverse,
    hreverse]

theorem rtake_min_length {α : Type} (n : Nat) (xs : List α) :
    xs.rtake (min n xs.length) = xs.rtake n := by
  unfold List.rtake
  congr 1
  omega

/-- Gives up the first thing as long as there are more than `n`. -/
def evict {α : Type} (n : Nat) : List α → List α
  | [] => []
  | x :: xs => if n < xs.length + 1 then evict n xs else x :: xs

theorem evict_eq_rtake {α : Type} (n : Nat) (xs : List α) : evict n xs = xs.rtake n := by
  induction xs with
  | nil => rw [evict, List.rtake_nil]
  | cons x xs ih =>
    rw [evict, List.rtake, List.length_cons]
    by_cases hn : n < xs.length + 1
    · have hgiven : xs.length + 1 - n = xs.length - n + 1 := Nat.succ_sub (Nat.le_of_lt_succ hn)
      rw [if_pos hn, ih, hgiven, List.drop_succ_cons, List.rtake]
    · rw [if_neg hn, Nat.sub_eq_zero_of_le (Nat.not_lt.mp hn), List.drop_zero]

/-- A passage that is recorded under a bound is put behind the others, and then the oldest one
gives way until the bound is kept. -/
theorem passages_record_eq_evict {h : History} {n : Nat} (hl : h.limit = some n) (p : Passage) :
    (h.record p).passages = evict n (h.passages ++ [p]) := by
  rw [passages_record_of_bounded hl, evict_eq_rtake, List.rtake, List.length_append,
    length_passages, List.length_singleton]

theorem passages_restrict (h : History) (n : Nat) :
    (h.restrict n).passages = h.passages.rtake n := by
  rw [List.rtake_eq_reverse_take_reverse, passages, passages, List.reverse_reverse]
  rfl

/-- A bound is set by recording the passages anew under it. -/
theorem foldl_record_bounded (h : History) (n : Nat) :
    h.passages.foldl record (bounded n) = h.restrict n := by
  by_cases hnone : h.passages = []
  · have hlatest : h.latest = [] := List.reverse_eq_nil_iff.mp hnone
    rw [hnone, List.foldl_nil, restrict, hlatest, List.take_nil]
    rfl
  · have hlimit : (h.passages.foldl record (bounded n)).limit = some n := limit_foldl_record _ _
    have hlatest : (h.passages.foldl record (bounded n)).latest = h.latest.take n := by
      have hbounded : (bounded n).limit = some n := rfl
      have hbefore : (bounded n).latest = [] := rfl
      rw [latest_foldl_record _ hnone, hbounded, hbefore, cut_some, List.append_nil, passages,
        List.reverse_reverse]
    cases hrecorded : h.passages.foldl record (bounded n) with
    | mk latest limit =>
      rw [hrecorded] at hlimit hlatest
      rw [restrict, ← hlatest, ← hlimit]

/-- A bound that is not larger than the one there is may be set before a passage is recorded
or after. -/
theorem record_restrict {h : History} {n : Nat} (hn : ∀ k, h.limit = some k → n ≤ k)
    (p : Passage) : (h.restrict n).record p = (h.record p).restrict n := by
  have hcut : cut (some n) (p :: h.latest.take n) = (cut h.limit (p :: h.latest)).take n := by
    have hinner : cut (some n) ([p] ++ cut (some n) h.latest) = cut (some n) (p :: h.latest) :=
      cut_append_cut (some n) [p] h.latest
    rw [cut_some, List.singleton_append, cut_some] at hinner
    rw [cut_some, hinner, cut_some]
    cases hl : h.limit with
    | none => rfl
    | some k => rw [cut_some, List.take_take, Nat.min_eq_left (hn k hl)]
  show ({ latest := cut (some n) (p :: h.latest.take n), limit := some n } : History) = _
  rw [hcut]
  rfl

end History

/-! ## Machines that are bounded later -/

namespace Machine

/-- The first machine is what the second one becomes, but for the times of its passages,
when its history is limited; the bound that the second one has is not smaller. -/
structure Later (n : Nat) (m m' : Machine σ ε) : Prop where
  alike : m.Alike (m'.limitHistory n)
  bound : ∀ k, m'.history.limit = some k → n ≤ k

theorem limitHistory_commit {m : Machine σ ε} {n : Nat}
    (hn : ∀ k, m.history.limit = some k → n ≤ k) (t : Transition σ ε) (target : State)
    (now : Instant) :
    (m.limitHistory n).commit t target now = (m.commit t target now).limitHistory n :=
  congrArg (fun history => { m with state := target, latest := some t, history })
    (History.record_restrict hn _)

theorem Later.coupling (n : Nat) :
    Machine.Coupling (Later n : Machine σ ε → Machine σ ε → Prop) where
  chart := fun hm => hm.alike.chart
  state := fun hm => hm.alike.state
  commit := by
    intro m m' hm t target now now'
    constructor
    · rw [← limitHistory_commit hm.bound]
      exact hm.alike.commit t target now now'
    · exact hm.bound

end Machine

/-! ## Main statement -/

/-- Recording passages under a bound leaves the latest of all, those that were there before
included, as many as the bound allows, and each that is recorded makes the oldest give way one
by one; without a bound all of them are left.  To limit the history of a machine is to record
its passages anew under the bound, and to change nothing else of the machine.

A machine that has no bound on its history, or one that is not smaller, may therefore be
given a bound before a row of requests or after it.  Neither comes to an end, or both are
served with the same receipts, and the machines that are left differ at most in the times
of their passages. -/
theorem keeps_latest_passages :
    (∀ (h : History) (ps : List Passage),
      (ps.foldl History.record h).limit = h.limit ∧
      (h.limit = none → (ps.foldl History.record h).passages = h.passages ++ ps) ∧
      ∀ n, h.limit = some n →
        (∀ p, (h.record p).passages = History.evict n (h.passages ++ [p])) ∧
        (ps ≠ [] → (ps.foldl History.record h).passages =
          (h.passages ++ ps).rtake (min n (h.size + ps.length)))) ∧
    (∀ (m : Machine σ ε) n,
      m.limitHistory n =
        { m with history := m.history.passages.foldl History.record (History.bounded n) } ∧
      (m.limitHistory n).history.limit = some n ∧
      (m.limitHistory n).history.passages = m.history.passages.rtake n) ∧
    ∀ (m : Machine σ ε) n, (∀ k, m.history.limit = some k → n ≤ k) →
      ∀ (requests : List (Request σ ε)) (clock clock' : Nat → Nat → Instant) (budget : Nat)
        (memory : σ),
        Session.Matching Eq
          (fun s u => s.machine.Alike (u.machine.limitHistory n) ∧ s.memory = u.memory)
          (Session.serveAll clock budget requests { machine := m.limitHistory n, memory })
          (Session.serveAll clock' budget requests { machine := m, memory }) := by
  refine ⟨?_, ?_, ?_⟩
  · intro h ps
    refine ⟨History.limit_foldl_record h ps, ?_, ?_⟩
    · exact fun hl => History.passages_foldl_record_of_unbounded hl ps
    · intro n hl
      refine ⟨History.passages_record_eq_evict hl, fun hps => ?_⟩
      rw [← History.length_passages, ← List.length_append, History.rtake_min_length]
      exact History.passages_foldl_record_of_bounded hl hps
  · intro m n
    refine ⟨?_, rfl, History.passages_restrict m.history n⟩
    rw [History.foldl_record_bounded]
    rfl
  · intro m n hn requests clock clock' budget memory
    have hpaired : Session.Paired (Machine.Later n) { machine := m.limitHistory n, memory }
        { machine := m, memory } := ⟨⟨.refl _, hn⟩, rfl⟩
    have hserved :=
      (Machine.Later.coupling n).serveAll hpaired clock clock' budget requests
    exact hserved.imp_sessions fun _ _ hr => ⟨hr.machine.alike, hr.memory⟩

/-- Two passages beyond a bound of one give way to a third.  The guest in the room who is told to
remember one passage remembers that into the room, and a visitor who is told so at the door
remembers as much. -/
theorem keeps_latest_passages_visitor :
    let arrival : Passage := { source := "c", target := "d", time := .noon }
    let visit : List (Request Bool String) := [{ drive := .run, handler := .porter }]
    History.crowded.limit = some 1 ∧ History.crowded.size = 2 ∧
    (History.crowded.record arrival).passages = [arrival] ∧
    (Machine.guest.limitHistory 1).history.passages =
      [{ source := "hall", target := "room", time := .noon }] ∧
    (∀ k, Machine.visitor.history.limit = some k → 1 ≤ k) ∧
    Session.Matching Eq
      (fun s u => s.machine.Alike (u.machine.limitHistory 1) ∧ s.memory = u.memory)
      (Session.serveAll (fun _ _ => .noon) 2 visit
        { machine := Machine.visitor.limitHistory 1, memory := false })
      (Session.serveAll (fun _ _ => .noon) 2 visit
        { machine := .visitor, memory := false }) := by
  intro arrival visit
  obtain ⟨hhistories, hlimited, hmachines⟩ := @keeps_latest_passages Bool String
  have hbound : ∀ k, Machine.visitor.history.limit = some k → 1 ≤ k := by
    intro k hk
    cases hk
  refine ⟨rfl, rfl, ?_, (hlimited .guest 1).2.2, hbound, ?_⟩
  · exact ((hhistories History.crowded [arrival]).2.2 1 rfl).2 (List.cons_ne_nil _ _)
  · exact hmachines .visitor 1 hbound visit (fun _ _ => .noon) (fun _ _ => .noon) 2 false

end Turnstile
