import Turnstile.Proofs.Machine.Record

/-!
# Which fault a step puts off

A step that makes a transition makes all of its calls, whatever goes wrong in them, and
reports one fault at most.  `Call.trail` lists the calls with the memories in which they are
made, each memory as the calls before it have left it.  `Call.GoesWell` and `Call.Raises` say
what the handler's answer in that memory means for one call, and the main statement says that
the fault of the step is that of the first call in the trail that does not go well.
-/

namespace Turnstile

variable {σ ε : Type}

namespace Call

/-- The memory that a call leaves. -/
def leave (h : Handler σ ε) (t : Transition σ ε) (event : Option ε) : Call σ ε → σ → σ
  | .hook phase k, x => (k.fire h phase t event x).2
  | .action a, x => (a.invoke h event x).2

/-- Calls that are made one after the other, each with the memory in which it is made. -/
def trail (h : Handler σ ε) (t : Transition σ ε) (event : Option ε) :
    List (Call σ ε) → σ → List (Call σ ε × σ)
  | [], _ => []
  | c :: cs, x => (c, x) :: trail h t event cs (c.leave h t event x)

/-- What is called is known, and an action does its job. -/
def GoesWell (h : Handler σ ε) (t : Transition σ ε) (event : Option ε) (x : σ) :
    Call σ ε → Prop
  | .hook phase (.named name) => (h.hook name phase t event x).1 = true
  | .hook _ (.callback _) => True
  | .action (.named name) => (h.action name event x).1 = some (.ok ())
  | .action (.callback run) => (run event x).1 = .ok ()

/-- The ways in which a call can go wrong, each with the fault that it raises. -/
inductive Raises (h : Handler σ ε) (t : Transition σ ε) (event : Option ε) (x : σ) :
    Call σ ε → Fault → Prop
  | unknownHook {phase : Phase} {name : String}
      (hunknown : (h.hook name phase t event x).1 = false) :
      Raises h t event x (.hook phase (.named name)) (.unknownCallable .hook name)
  | unknownAction {name : String} (hunknown : (h.action name event x).1 = none) :
      Raises h t event x (.action (.named name)) (.unknownCallable .action name)
  | failed {name : String} {failure : Failure}
      (hfailed : (h.action name event x).1 = some (.error failure)) :
      Raises h t event x (.action (.named name)) (.failed t.source t.target failure)
  | failedCallback {run : Option ε → σ → Except Failure Unit × σ} {failure : Failure}
      (hfailed : (run event x).1 = .error failure) :
      Raises h t event x (.action (.callback run)) (.failed t.source t.target failure)

variable {h : Handler σ ε} {t : Transition σ ε} {event : Option ε} {x : σ}

theorem make_snd (c : Call σ ε) : (c.make h t event x).2 = c.leave h t event x := by
  cases c with
  | hook phase k =>
    rw [make, leave]
    split <;> simp [*]
  | action a =>
    rw [make, leave]
    split <;> simp [*]

theorem make_fst_eq_none_iff {c : Call σ ε} :
    (c.make h t event x).1 = none ↔ c.GoesWell h t event x := by
  cases c with
  | hook phase k =>
    cases k with
    | named name =>
      rcases hanswer : h.hook name phase t event x with ⟨known, y⟩
      cases known <;> simp [make, Hook.fire, GoesWell, hanswer]
    | callback run => simp [make, Hook.fire, GoesWell]
  | action a =>
    cases a with
    | named name =>
      rcases hanswer : h.action name event x with ⟨_ | _ | _, y⟩ <;>
        simp [make, Action.invoke, GoesWell, hanswer]
    | callback run =>
      rcases hanswer : run event x with ⟨_ | _, y⟩ <;>
        simp [make, Action.invoke, GoesWell, hanswer]

theorem raises_of_make {c : Call σ ε} {fault : Fault}
    (hfault : (c.make h t event x).1 = some fault) : c.Raises h t event x fault := by
  cases c with
  | hook phase k =>
    cases k with
    | named name =>
      rcases hanswer : h.hook name phase t event x with ⟨_ | _, y⟩
      · simp only [make, Hook.fire, hanswer] at hfault
        obtain rfl := Option.some.inj hfault
        exact .unknownHook (by rw [hanswer])
      · simp [make, Hook.fire, hanswer] at hfault
    | callback run => simp [make, Hook.fire] at hfault
  | action a =>
    cases a with
    | named name =>
      rcases hanswer : h.action name event x with ⟨_ | failure | _, y⟩
      · simp only [make, Action.invoke, hanswer] at hfault
        obtain rfl := Option.some.inj hfault
        exact .unknownAction (by rw [hanswer])
      · simp only [make, Action.invoke, hanswer] at hfault
        obtain rfl := Option.some.inj hfault
        exact .failed (by rw [hanswer])
      · simp [make, Action.invoke, hanswer] at hfault
    | callback run =>
      rcases hanswer : run event x with ⟨failure | _, y⟩
      · simp only [make, Action.invoke, hanswer] at hfault
        obtain rfl := Option.some.inj hfault
        exact .failedCallback (by rw [hanswer])
      · simp [make, Action.invoke, hanswer] at hfault

theorem Raises.make_fst {c : Call σ ε} {fault : Fault} (hraises : c.Raises h t event x fault) :
    (c.make h t event x).1 = some fault := by
  cases hraises with
  | @unknownHook phase name hunknown =>
    rcases hanswer : h.hook name phase t event x with ⟨known, y⟩
    obtain rfl : known = false := by rw [← hunknown, hanswer]
    simp [make, Hook.fire, hanswer, Hook.label]
  | @unknownAction name hunknown =>
    rcases hanswer : h.action name event x with ⟨answer, y⟩
    obtain rfl : answer = none := by rw [← hunknown, hanswer]
    simp [make, Action.invoke, hanswer, Action.label]
  | @failed name failure hfailed =>
    rcases hanswer : h.action name event x with ⟨answer, y⟩
    obtain rfl : answer = some (.error failure) := by rw [← hfailed, hanswer]
    simp [make, Action.invoke, hanswer]
  | @failedCallback run failure hfailed =>
    rcases hanswer : run event x with ⟨answer, y⟩
    obtain rfl : answer = .error failure := by rw [← hfailed, hanswer]
    simp [make, Action.invoke, hanswer]

theorem make_fst_eq_some_iff {c : Call σ ε} {fault : Fault} :
    (c.make h t event x).1 = some fault ↔ c.Raises h t event x fault :=
  ⟨raises_of_make, Raises.make_fst⟩

/-- A row of calls is at fault as the first call in its trail is that goes wrong. -/
theorem makeAll_fst_eq (cs : List (Call σ ε)) (x : σ) :
    (makeAll h t event cs x).1 =
      (trail h t event cs x).findSome? fun p => (p.1.make h t event p.2).1 := by
  induction cs generalizing x with
  | nil => rfl
  | cons c cs ih =>
    rw [trail, List.findSome?_cons, ← ih, ← make_snd]
    show ((c.make h t event x).1).or _ = _
    cases (c.make h t event x).1 <;> rfl

theorem makeAll_snd_eq (cs : List (Call σ ε)) (x : σ) :
    (makeAll h t event cs x).2 = cs.foldl (fun x c => c.leave h t event x) x := by
  induction cs generalizing x with
  | nil => rfl
  | cons c cs ih =>
    rw [List.foldl_cons, ← ih, ← make_snd]
    rfl

theorem makeAll_fst_eq_none_iff {cs : List (Call σ ε)} {x : σ} :
    (makeAll h t event cs x).1 = none ↔
      ∀ p ∈ trail h t event cs x, p.1.GoesWell h t event p.2 := by
  simp only [makeAll_fst_eq, List.findSome?_eq_none_iff, make_fst_eq_none_iff]

theorem makeAll_fst_eq_some_iff {cs : List (Call σ ε)} {x : σ} {fault : Fault} :
    (makeAll h t event cs x).1 = some fault ↔
      ∃ before c y after, trail h t event cs x = before ++ (c, y) :: after ∧
        (∀ p ∈ before, p.1.GoesWell h t event p.2) ∧ c.Raises h t event y fault := by
  rw [makeAll_fst_eq, List.findSome?_eq_some_iff]
  simp only [make_fst_eq_none_iff, make_fst_eq_some_iff]
  constructor
  · rintro ⟨before, ⟨c, y⟩, after, htrail, hraises, hbefore⟩
    exact ⟨before, c, y, after, htrail, hbefore, hraises⟩
  · rintro ⟨before, c, y, after, htrail, hbefore, hraises⟩
    exact ⟨before, (c, y), after, htrail, hraises, hbefore⟩

end Call

namespace StepResult

theorem propagate_eq_error_iff {r : StepResult} {fault : Fault} :
    r.propagate = .error fault ↔ r.deferred = some fault := by
  unfold propagate
  cases r.deferred <;> simp

theorem propagate_eq_ok_iff {r r' : StepResult} :
    r.propagate = .ok r' ↔ r.deferred = none ∧ r = r' := by
  unfold propagate
  cases r.deferred <;> simp

end StepResult

namespace Session

/-! ## Main statement -/

/-- A step that makes a transition calls every hook before it, then its action if it has one,
and then every hook after it, each in the memory that the calls before it have left.  It puts
no fault off when all of them go well, and otherwise the fault of the first that does not.
Propagating its result gives that fault as an error, and leaves a result without a fault as it
is. -/
theorem defers_first_fault {h : Handler σ ε} {now : Instant} {event : Option ε}
    {s s' : Session σ ε} {source target : String} {deferred : Option Fault}
    (hstep : s.step h now event = (.ok (.moved source target deferred), s')) :
    ∃ t ∈ s.machine.possible,
      t.source = source ∧ t.target = target ∧ s'.machine.latest = some t ∧
      let hooks := s.machine.chart.hooks
      let calls := hooks.map (Call.hook .before) ++ t.action.toList.map .action ++
        hooks.map (Call.hook .after)
      let trail := Call.trail h t event calls (s.told h event).memory
      s'.memory = calls.foldl (fun x c => c.leave h t event x) (s.told h event).memory ∧
      (deferred = none ↔ ∀ p ∈ trail, p.1.GoesWell h t event p.2) ∧
      (∀ fault, deferred = some fault ↔
        ∃ before c x after, trail = before ++ (c, x) :: after ∧
          (∀ p ∈ before, p.1.GoesWell h t event p.2) ∧ c.Raises h t event x fault) ∧
      (∀ fault, (StepResult.moved source target deferred).propagate = .error fault ↔
        deferred = some fault) ∧
      ((StepResult.moved source target deferred).propagate =
          .ok (.moved source target deferred) ↔ deferred = none) := by
  cases stepped_of_step hstep with
  | @moved t state _ memory hknown hopen htarget hcalls =>
    obtain ⟨hdeferred, hmemory⟩ := Prod.mk.inj hcalls
    refine ⟨t, mem_possible_of_opened hopen, rfl, rfl, rfl, ?_, ?_, fun fault => ?_,
      fun fault => StepResult.propagate_eq_error_iff, ?_⟩
    · exact hmemory.symm.trans (Call.makeAll_snd_eq _ _)
    · rw [← hdeferred]
      exact Call.makeAll_fst_eq_none_iff
    · rw [← hdeferred]
      exact Call.makeAll_fst_eq_some_iff
    · rw [StepResult.propagate_eq_ok_iff, and_iff_left rfl]
      rfl

/-- Stands on the porch before the way in. -/
def atDoor : Session (List String) String :=
  { machine :=
      { Machine.newcomer with state := { name := "porch", flags := { transient := true } } }
    memory := [] }

/-- The bell fails before the knock does, and rings well when both are done. -/
theorem defers_first_fault_atDoor :
    ∃ s', atDoor.step .steward .noon none =
        (.ok (.moved "porch" "inside" (some (.unknownCallable .hook "bell"))), s') ∧
      s'.memory = ["before inside: bell", "knock", "after inside: bell"] ∧
      ∃ t ∈ atDoor.machine.possible, ∃ before c x after,
        Call.trail .steward t none
            [.hook .before (.named "bell"), .action (.named "knock"), .hook .after (.named "bell")]
            [] = before ++ (c, x) :: after ∧
          (∀ p ∈ before, p.1.GoesWell .steward t none p.2) ∧
          c.Raises .steward t none x (.unknownCallable .hook "bell") := by
  have hstep : ∃ s', atDoor.step .steward .noon none =
      (.ok (.moved "porch" "inside" (some (.unknownCallable .hook "bell"))), s') := ⟨_, rfl⟩
  obtain ⟨s', hstep⟩ := hstep
  obtain ⟨t, ht, -, -, -, hmemory, -, hfirst, -⟩ := defers_first_fault hstep
  obtain rfl : t = { source := "porch", target := "inside", action := some (.named "knock") } :=
    List.mem_singleton.mp ht
  exact ⟨s', hstep, hmemory, _, ht, (hfirst _).mp rfl⟩

end Session
end Turnstile
