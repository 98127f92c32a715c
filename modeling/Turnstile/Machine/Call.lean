import Turnstile.Handler

/-!
The calls that a transition makes.

A transition calls every hook, then its action, then every hook again.  A call that
goes wrong does not keep the later ones from being made; the first fault among them
is what is reported.
-/

namespace Turnstile

variable {σ ε : Type}

inductive Call (σ ε : Type) where
  | hook (phase : Phase) (hook : Hook σ ε)
  | action (action : Action σ ε)

namespace Call

/-- Makes a call for a transition and answers with what went wrong. -/
def make (h : Handler σ ε) (t : Transition σ ε) (event : Option ε) :
    Call σ ε → σ → Option Fault × σ
  | .hook phase k, x =>
    match k.fire h phase t event x with
    | (true, x) => (none, x)
    | (false, x) => (some (.unknownCallable .hook k.label), x)
  | .action a, x =>
    match a.invoke h event x with
    | (some (.ok ()), x) => (none, x)
    | (some (.error failure), x) => (some (.failed t.source t.target failure), x)
    | (none, x) => (some (.unknownCallable .action a.label), x)

/-- Makes calls one after the other, whatever goes wrong, and answers with the first
fault. -/
def makeAll (h : Handler σ ε) (t : Transition σ ε) (event : Option ε) :
    List (Call σ ε) → σ → Option Fault × σ
  | [], x => (none, x)
  | c :: cs, x =>
    let (fault, x) := c.make h t event x
    let (later, x) := makeAll h t event cs x
    (fault.or later, x)

theorem makeAll_append (h : Handler σ ε) (t : Transition σ ε) (event : Option ε)
    (cs ds : List (Call σ ε)) (x : σ) :
    makeAll h t event (cs ++ ds) x =
      ((makeAll h t event cs x).1.or (makeAll h t event ds (makeAll h t event cs x).2).1,
        (makeAll h t event ds (makeAll h t event cs x).2).2) := by
  induction cs generalizing x with
  | nil => simp [makeAll]
  | cons c cs ih => simp [makeAll, ih, Option.or_assoc]

end Call

/-- The calls of a transition under the given hooks. -/
def Transition.calls (t : Transition σ ε) (hooks : List (Hook σ ε)) : List (Call σ ε) :=
  hooks.map (.hook .before) ++ t.action.toList.map .action ++ hooks.map (.hook .after)

end Turnstile
