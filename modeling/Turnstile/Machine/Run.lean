import Turnstile.Machine.Step

/-!
Runs of a machine.

A run steps on the same event as long as it lands in states that it passes straight
through.  Nothing bounds the number of its steps, since a chart may lead a machine
round for ever, so a run is given a budget of steps and answers with none when it
needs more.  A run that answers does so alike under every larger budget.
-/

namespace Turnstile

variable {σ ε : Type}

inductive Status where
  /-- No transition was open in a state in which a run may end. -/
  | finished
  /-- The machine came into a state in which a run may end. -/
  | final
  /-- The machine came into a state that waits for another event. -/
  | suspended
  deriving DecidableEq, Repr

/-- What a run came to: the state in which it left the machine, and the number of
its steps. -/
structure Outcome where
  state : String
  steps : Nat
  status : Status
  deriving DecidableEq, Repr

/-- The outcome of a run that has made a transition into a state which it does not
pass through. -/
def Outcome.restingIn (state : State) (steps : Nat) : Outcome :=
  { state := state.name, steps, status := if state.isFinal then .final else .suspended }

namespace Session

/-- Goes on with a run that has made `taken` steps, for at most `budget` steps more.
The clock says when each step is made. -/
def runFrom (h : Handler σ ε) (clock : Nat → Instant) (event : Option ε) (taken : Nat) :
    (budget : Nat) → Session σ ε → Option (Except Fault Outcome × Session σ ε)
  | 0, _ => none
  | budget + 1, s =>
    match s.step h (clock taken) event with
    | (.error fault, s) => some (.error fault, s)
    | (.ok (.finished state), s) =>
      some (.ok { state, steps := taken + 1, status := .finished }, s)
    | (.ok (.moved _ _ (some fault)), s) => some (.error fault, s)
    | (.ok (.moved _ _ none), s) =>
      if s.machine.state.advances then runFrom h clock event (taken + 1) budget s
      else some (.ok (Outcome.restingIn s.machine.state (taken + 1)), s)

/-- Runs the machine on an event, if there is one, for at most `budget` steps. -/
def run (h : Handler σ ε) (clock : Nat → Instant) (event : Option ε) (budget : Nat)
    (s : Session σ ε) : Option (Except Fault Outcome × Session σ ε) :=
  runFrom h clock event 0 budget s

/-- A run that answers does so alike under every larger budget. -/
theorem runFrom_mono {h : Handler σ ε} {clock : Nat → Instant} {event : Option ε}
    {taken budget more : Nat} {s : Session σ ε} {r : Except Fault Outcome × Session σ ε}
    (hr : runFrom h clock event taken budget s = some r) (hle : budget ≤ more) :
    runFrom h clock event taken more s = some r := by
  induction budget generalizing taken more s with
  | zero => simp [runFrom] at hr
  | succ budget ih =>
    obtain ⟨more, rfl⟩ : ∃ k, more = k + 1 := ⟨more - 1, by omega⟩
    unfold runFrom at hr ⊢
    split
    · next heq => simpa [heq] using hr
    · next heq => simpa [heq] using hr
    · next heq => simpa [heq] using hr
    · next s' heq =>
      simp only [heq] at hr
      split
      · next hadv =>
        rw [if_pos hadv] at hr
        exact ih hr (by omega)
      · next hadv => simpa [hadv] using hr

end Session
end Turnstile
