import Turnstile.Handler

/-!
Surveys: which of several transitions are open at the moment.

All transitions of a survey are judged by the same memory, since conditions only
read it.  A survey fails at the first condition that the handler does not know, so
it asks for the conditions up to that one and for no others; the handler's account
of the answers is brought up to date when the survey is done.
-/

namespace Turnstile

variable {σ ε : Type}

namespace Handler

/-- The open ones among some transitions, or the fault of the first condition that
is not known. -/
def survey (h : Handler σ ε) (event : Option ε) (x : σ) :
    List (Transition σ ε) → Except Fault (List (Transition σ ε))
  | [] => .ok []
  | t :: ts =>
    match t.eligible h event x with
    | .error fault => .error fault
    | .ok isOpen =>
      match h.survey event x ts with
      | .error fault => .error fault
      | .ok rest => .ok (if isOpen then t :: rest else rest)

/-- The conditions that a survey asks for, with their answers: those of the
transitions in order, up to the first that is not known. -/
def answers (h : Handler σ ε) (event : Option ε) (x : σ) :
    List (Transition σ ε) → List (Condition σ ε × Option Bool)
  | [] => []
  | t :: ts =>
    match t.condition with
    | none => h.answers event x ts
    | some c =>
      match c.value h event x with
      | none => [(c, none)]
      | some b => (c, some b) :: h.answers event x ts

def tell (h : Handler σ ε) (event : Option ε) (x : σ)
    (answers : List (Condition σ ε × Option Bool)) : σ :=
  answers.foldl (fun x a => h.asked a.1 event a.2 x) x

end Handler
end Turnstile
