import Turnstile.Fault

/-!
Handlers: what the names in a chart mean.

A handler answers for conditions, actions and hooks by name and says so when it
does not know a name.  It is a pure description: what it remembers is a value of
`σ`, which conditions read and which every other call takes and gives back.  A
handler may besides keep an account of the conditions it is asked about; the
account is told of each answer and has no part in it.
-/

namespace Turnstile

/-- The meaning of the names in a chart, over memories `σ` and events `ε`.  Left to
itself a handler knows no name and does nothing. -/
structure Handler (σ ε : Type) where
  /-- The truth of the named condition, or none when the name is not known. -/
  condition : String → Option ε → σ → Option Bool := fun _ _ _ => none
  /-- Performs the named action, or answers none when the name is not known. -/
  action : String → Option ε → σ → Option (Except Failure Unit) × σ := fun _ _ x => (none, x)
  /-- Calls the named hook and says whether the name is known. -/
  hook : String → Phase → Transition σ ε → Option ε → σ → Bool × σ := fun _ _ _ _ x => (false, x)
  /-- Is told that a run has come to its end. -/
  finished : σ → σ := id
  /-- Is told how a condition was answered. -/
  asked : Condition σ ε → Option ε → Option Bool → σ → σ := fun _ _ _ x => x

variable {σ ε : Type}

namespace Condition

/-- The truth of a condition, or none when the handler does not know it. -/
def value (h : Handler σ ε) (event : Option ε) (x : σ) : Condition σ ε → Option Bool
  | .named name => h.condition name event x
  | .predicate _ holds => some (holds x event)

/-- Asks for the truth of a condition and tells the handler of the answer. -/
def ask (h : Handler σ ε) (event : Option ε) (c : Condition σ ε) (x : σ) : Option Bool × σ :=
  let answer := c.value h event x
  (answer, h.asked c event answer x)

end Condition

namespace Action

/-- Performs an action, or answers none when the handler does not know it. -/
def invoke (h : Handler σ ε) (event : Option ε) :
    Action σ ε → σ → Option (Except Failure Unit) × σ
  | .named name, x => h.action name event x
  | .callback run, x =>
    let (result, x) := run event x
    (some result, x)

end Action

namespace Hook

/-- Calls a hook and says whether it was known. -/
def fire (h : Handler σ ε) (phase : Phase) (t : Transition σ ε) (event : Option ε) :
    Hook σ ε → σ → Bool × σ
  | .named name, x => h.hook name phase t event x
  | .callback run, x => (true, run phase t event x)

end Hook

namespace Transition

/-- Whether the transition may be made: it has no condition, or the condition holds
as it is or turned around.  A condition that the handler does not know is a fault. -/
def eligible (h : Handler σ ε) (event : Option ε) (x : σ) (t : Transition σ ε) :
    Except Fault Bool :=
  match t.condition with
  | none => .ok true
  | some c =>
    match c.value h event x with
    | none => .error (.unknownCallable .condition c.label)
    | some b => .ok (b != t.negate)

/-- Asks whether the transition may be made and tells the handler of the answer
about its condition; none when the handler does not know the condition. -/
def askEligible (h : Handler σ ε) (event : Option ε) (t : Transition σ ε) (x : σ) :
    Option Bool × σ :=
  match t.condition with
  | none => (some true, x)
  | some c =>
    let (answer, x) := c.ask h event x
    (answer.map (· != t.negate), x)

/-- The answer is the one that a step goes by. -/
theorem askEligible_fst (h : Handler σ ε) (event : Option ε) (t : Transition σ ε) (x : σ) :
    (t.askEligible h event x).1 = (t.eligible h event x).toOption := by
  unfold askEligible eligible Condition.ask
  cases t.condition with
  | none => rfl
  | some c => cases hc : c.value h event x <;> simp [hc, Except.toOption]

end Transition
end Turnstile
