import Turnstile.Proofs.Branch.Tree

/-!
# Programs that build outlines

A draft is a program over the handles of an outline.  It makes calls on handles, builds
blocks of its own on new branches, looks at what has been built, and goes on by what it
was answered, refusals included; a block ends early when it refuses to go on.  A draft
changes its outline by calls only, so what every call keeps stays with the outline
(`Draft.keeps`), and a call is one write of `spawn` or `revise`
(`BranchCall.eq_spawn_or_eq_revise`), of which `BranchCall.write` gives the branch that is
written.  Therefore every draft leaves a tree behind, and what is built from it is read off
that tree (`Draft.builds_tree`).
-/

namespace Turnstile

open Relation

variable {σ ε : Type}

/-- What may become of a branch: what it says of where it leads from and when stays as it is,
and so does where it leads to once that is known. -/
structure Branch.Settles (b b' : Branch σ ε) : Prop where
  source : b'.source = b.source
  condition : b'.condition = b.condition
  negate : b'.negate = b.negate
  target : ∀ name, b.target = some name → b'.target = some name

/-- What is written at a branch: a branch is added below it, or it becomes another. -/
inductive Branch.Write (σ ε : Type) where
  | added (b : Branch σ ε)
  | changed (b : Branch σ ε)

/-- The calls on one handle. -/
inductive BranchCall (σ ε : Type) where
  | startAt (name : String)
  | onlyIf (c : Condition σ ε)
  | onlyUnless (c : Condition σ ε)
  | otherwise
  | otherwiseIf (c : Condition σ ε)
  | goTo (name : String)
  | doing (a : Action σ ε)
  | stay
  | describe (text : String)

namespace BranchCall

def on (h : Handle) : BranchCall σ ε → Build σ ε Handle
  | startAt name => h.startAt name
  | onlyIf c => h.onlyIf c
  | onlyUnless c => h.onlyUnless c
  | otherwise => h.otherwise
  | otherwiseIf c => h.otherwiseIf c
  | goTo name => h.goTo name
  | doing a => h.doing a
  | stay => h.stay
  | describe text => h.describe text

/-- What a call makes of an outline. -/
def apply (o : Outline σ ε) (h : Handle) :
    BranchCall σ ε → Except BranchError (Handle × Outline σ ε)
  | startAt name => o.startAt h name
  | onlyIf c => .ok (o.onlyIf h c)
  | onlyUnless c => .ok (o.onlyUnless h c)
  | otherwise => o.otherwise h
  | otherwiseIf c => .ok (o.otherwiseIf h c)
  | goTo name => o.goTo h name
  | doing a => .ok (o.doing h a)
  | stay => o.stay h
  | describe text => .ok (o.describe h text)

theorem on_eq_call (k : BranchCall σ ε) (h : Handle) :
    k.on h = BuildT.call fun o => k.apply o h := by
  cases k <;> rfl

/-- The source that a call gives to the branch it adds. -/
def source? : BranchCall σ ε → Option String
  | startAt name => some name
  | _ => none

/-- What a call that is not refused writes, where `b` is the branch of its handle. -/
def write (b : Branch σ ε) : BranchCall σ ε → Branch.Write σ ε
  | startAt name => .added { source := some name }
  | onlyIf c => .added { source := b.source, target := b.target, condition := some c }
  | onlyUnless c =>
    .added { source := b.source, target := b.target, condition := some c, negate := true }
  | otherwise => .added { source := b.source, condition := b.condition, negate := !b.negate }
  | otherwiseIf c => .added { source := b.source, condition := some c }
  | goTo name => .changed { b with target := some name }
  | doing a => .changed { b with action := some a }
  | stay => .changed { b with target := b.source }
  | describe text => .changed { b with description := some text }

theorem eq_revise_of_goTo {o : Outline σ ε} {h : Handle} {name : String}
    {answer : Handle × Outline σ ε} (hgo : o.goTo h name = .ok answer) :
    (o.branch h).target = none ∧ answer = o.revise h fun b => { b with target := some name } := by
  unfold Outline.goTo at hgo
  cases htarget : (o.branch h).target with
  | some target =>
    rw [htarget] at hgo
    cases hgo
  | none =>
    rw [htarget] at hgo
    exact ⟨rfl, (Except.ok.inj hgo).symm⟩

theorem exists_goTo_of_stay {o : Outline σ ε} {h : Handle} {answer : Handle × Outline σ ε}
    (hstay : o.stay h = .ok answer) :
    ∃ source, (o.branch h).source = some source ∧ o.goTo h source = .ok answer := by
  unfold Outline.stay at hstay
  cases hsource : (o.branch h).source with
  | none =>
    rw [hsource] at hstay
    cases hstay
  | some source =>
    rw [hsource] at hstay
    exact ⟨source, rfl, hstay⟩

section Accepted

variable {k : BranchCall σ ε} {o : Outline σ ε} {h : Handle} {answer : Handle × Outline σ ε}
  {b : Branch σ ε}

/-- Where a call gives a source there is none yet. -/
theorem source_eq_none_of_apply (hk : k.apply o h = .ok answer) {name : String}
    (hname : k.source? = some name) : (o.branch h).source = none := by
  cases k with
  | startAt name =>
    unfold apply Outline.startAt at hk
    cases hsource : (o.branch h).source with
    | none => rfl
    | some source =>
      rw [hsource] at hk
      cases hk
  | onlyIf | onlyUnless | otherwise | otherwiseIf | goTo | doing | stay | describe => cases hname

/-- A call that is not refused adds a branch below its own, or changes its own. -/
theorem eq_spawn_or_eq_revise (hk : k.apply o h = .ok answer) :
    (∃ b, k.write (o.branch h) = .added b ∧ answer = o.spawn h b) ∨
      ∃ f, k.write (o.branch h) = .changed (f (o.branch h)) ∧ answer = o.revise h f := by
  cases k with
  | onlyIf c | onlyUnless c | otherwiseIf c =>
    exact .inl ⟨_, rfl, (Except.ok.inj hk).symm⟩
  | doing a | describe text => exact .inr ⟨_, rfl, (Except.ok.inj hk).symm⟩
  | goTo name => exact .inr ⟨_, rfl, (eq_revise_of_goTo hk).2⟩
  | startAt name =>
    have hsource := source_eq_none_of_apply hk rfl
    unfold apply Outline.startAt at hk
    rw [hsource] at hk
    exact .inl ⟨_, rfl, (Except.ok.inj hk).symm⟩
  | otherwise =>
    unfold apply Outline.otherwise at hk
    cases hcondition : (o.branch h).condition with
    | none =>
      simp only [hcondition] at hk
      cases hk
    | some c =>
      simp only [hcondition] at hk
      refine .inl ⟨_, ?_, (Except.ok.inj hk).symm⟩
      rw [write, hcondition]
  | stay =>
    obtain ⟨source, hsource, hgo⟩ := exists_goTo_of_stay hk
    refine .inr ⟨_, ?_, (eq_revise_of_goTo hgo).2⟩
    rw [write, hsource]

/-- The branch that a call adds has the source of the one above it, or the one that the call
gives it where there is none above. -/
theorem source_of_write (hk : k.apply o h = .ok answer) (hb : k.write (o.branch h) = .added b) :
    b.source = (o.branch h).source.or k.source? := by
  cases k with
  | startAt name =>
    obtain rfl := Branch.Write.added.inj hb
    rw [source_eq_none_of_apply hk rfl]
    rfl
  | onlyIf | onlyUnless | otherwise | otherwiseIf =>
    obtain rfl := Branch.Write.added.inj hb
    exact Option.or_none.symm
  | goTo | doing | stay | describe => cases hb

/-- A call that changes its branch changes nothing in it that was settled. -/
theorem settles_of_write (hk : k.apply o h = .ok answer)
    (hb : k.write (o.branch h) = .changed b) : (o.branch h).Settles b := by
  have hopen : ∀ {name target}, o.goTo h name = .ok answer →
      (o.branch h).Settles { o.branch h with target := target } := by
    intro name target hgo
    refine ⟨rfl, rfl, rfl, fun known hknown => ?_⟩
    rw [(eq_revise_of_goTo hgo).1] at hknown
    cases hknown
  cases k with
  | startAt | onlyIf | onlyUnless | otherwise | otherwiseIf => cases hb
  | goTo name =>
    obtain rfl := Branch.Write.changed.inj hb
    exact hopen hk
  | stay =>
    obtain rfl := Branch.Write.changed.inj hb
    obtain ⟨source, -, hgo⟩ := exists_goTo_of_stay hk
    exact hopen hgo
  | doing | describe =>
    obtain rfl := Branch.Write.changed.inj hb
    exact ⟨rfl, rfl, rfl, fun _ hknown => hknown⟩

theorem source?_eq_none_of_write {c : Branch σ ε} (hb : k.write c = .changed b) :
    k.source? = none := by
  cases k with
  | startAt name => cases hb
  | onlyIf | onlyUnless | otherwise | otherwiseIf | goTo | doing | stay | describe => rfl

end Accepted

end BranchCall

/-- A program over handles.  What it does next depends on what it was answered. -/
inductive Draft (σ ε : Type) where
  | done
  | refuse (e : BranchError)
  | call (h : Handle) (k : BranchCall σ ε) (next : Except BranchError Handle → Draft σ ε)
  | within (h : Handle) (name : String) (body : Handle → Draft σ ε)
      (next : Except BranchError Handle → Draft σ ε)
  | look (h : Handle) (next : Bool → List (Transition σ ε) → Draft σ ε)

namespace Draft

/-- The build that a draft stands for. -/
def build : Draft σ ε → Build σ ε Unit
  | done => pure ()
  | refuse e => throw e
  | call h k next => do
    let answer ← observing (k.on h)
    (next answer).build
  | within h name body next => do
    let answer ← observing (h.startAtWith name fun child => (body child).build)
    (next answer).build
  | look h next => do
    let complete ← h.isComplete
    let transitions ← h.transitions
    (next complete transitions).build

/-- The outline that a draft leaves behind. -/
def outline (d : Draft σ ε) : Outline σ ε := (Id.run (d.build.runOn Outline.root)).2

/-- The outline that a draft makes of one that has been begun. -/
def outlineFrom (d : Draft σ ε) (o : Outline σ ε) : Outline σ ε := (Id.run (d.build.runOn o)).2

end Draft

/-! ## What builds keep -/

namespace BuildT

variable {α β : Type}

theorem run_bind (x : Build σ ε α) (f : α → Build σ ε β) (o : Outline σ ε) :
    Id.run ((x >>= f).runOn o) =
      match Id.run (x.runOn o) with
      | (.ok a, o') => Id.run ((f a).runOn o')
      | (.error e, o') => (.error e, o') := by
  rw [runOn, runOn, ExceptT.run_bind, StateT.run_bind]
  generalize x.run.run o = r
  rcases r with ⟨_ | _, _⟩ <;> rfl

theorem run_bind_of_run {x : Build σ ε α} {f : α → Build σ ε β} {o o' : Outline σ ε} {a : α}
    (hx : Id.run (x.runOn o) = (.ok a, o')) :
    Id.run ((x >>= f).runOn o) = Id.run ((f a).runOn o') := by
  rw [run_bind, hx]

theorem run_tryCatch (x : Build σ ε α) (f : BranchError → Build σ ε α) (o : Outline σ ε) :
    Id.run ((tryCatch x f : Build σ ε α).runOn o) =
      match Id.run (x.runOn o) with
      | (.ok a, o') => (.ok a, o')
      | (.error e, o') => Id.run ((f e).runOn o') := by
  rw [runOn, runOn, ExceptT.run_tryCatch, StateT.run_bind]
  generalize x.run.run o = r
  rcases r with ⟨_ | _, _⟩ <;> rfl

/-- A build that is watched for a refusal always has a result, and leaves what the build
leaves. -/
theorem run_observing (x : Build σ ε α) (o : Outline σ ε) :
    Id.run ((observing x).runOn o) = (.ok (Id.run (x.runOn o)).1, (Id.run (x.runOn o)).2) := by
  rw [observing, run_tryCatch, run_bind]
  generalize Id.run (x.runOn o) = r
  rcases r with ⟨_ | _, _⟩ <;> rfl

theorem run_call (f : Outline σ ε → Except BranchError (Handle × Outline σ ε))
    (o : Outline σ ε) :
    Id.run ((call f : Build σ ε Handle).runOn o) =
      match f o with
      | .ok (h, o') => (.ok h, o')
      | .error e => (.error e, o) := by
  have hcall : Id.run ((call f : Build σ ε Handle).runOn o) =
      Id.run (runOn (match f o with
        | .ok (h, o') => (do set o'; return h : Build σ ε Handle)
        | .error e => throw e) o) := rfl
  rw [hcall]
  cases f o <;> rfl

/-- Whatever outline the build runs on, the property stays with it. -/
def Keeps (P : Outline σ ε → Prop) (x : Build σ ε α) : Prop :=
  ∀ o, P o → P (Id.run (x.runOn o)).2

variable {P : Outline σ ε → Prop}

theorem Keeps.bind {x : Build σ ε α} {f : α → Build σ ε β} (hx : Keeps P x)
    (hf : ∀ a, Keeps P (f a)) : Keeps P (x >>= f) := by
  intro o ho
  have hrest := hx o ho
  rw [run_bind]
  rcases hrun : Id.run (x.runOn o) with ⟨_ | a, o'⟩
  · rw [hrun] at hrest
    exact hrest
  · rw [hrun] at hrest
    exact hf a o' hrest

theorem Keeps.observing {x : Build σ ε α} (hx : Keeps P x) : Keeps P (observing x) := by
  intro o ho
  rw [run_observing]
  exact hx o ho

end BuildT

section Keeps

variable {P : Outline σ ε → Prop}
  (hcall : ∀ (o : Outline σ ε) (h : Handle) (k : BranchCall σ ε) (answer : Handle × Outline σ ε),
    k.apply o h = .ok answer → P o → P answer.2)
include hcall

theorem BranchCall.keeps (k : BranchCall σ ε) (h : Handle) : BuildT.Keeps P (k.on h) := by
  intro o ho
  rw [on_eq_call, BuildT.run_call]
  cases hk : k.apply o h with
  | error e => exact ho
  | ok answer => exact hcall o h k answer hk ho

/-- What every call keeps that is not refused is kept by every draft. -/
theorem Draft.keeps (d : Draft σ ε) : BuildT.Keeps P d.build := by
  induction d with
  | done | refuse e => exact fun _ ho => ho
  | call h k next ih =>
    apply BuildT.Keeps.bind
    · exact (k.keeps hcall h).observing
    · exact ih
  | within h name body next ihbody ih =>
    have hblock : BuildT.Keeps P (h.startAtWith name fun child => (body child).build) := by
      apply BuildT.Keeps.bind
      · exact (BranchCall.startAt name).keeps hcall h
      · intro child
        exact (ihbody child).bind fun _ _ ho => ho
    exact hblock.observing.bind ih
  | look h next ih =>
    apply BuildT.Keeps.bind
    · exact fun _ ho => ho
    · intro complete
      apply BuildT.Keeps.bind
      · exact fun _ ho => ho
      · exact ih complete

end Keeps

theorem BranchCall.planted {k : BranchCall σ ε} {o : Outline σ ε} {h : Handle}
    {answer : Handle × Outline σ ε} (hk : k.apply o h = .ok answer) (ho : o.Planted) :
    answer.2.Planted := by
  rcases eq_spawn_or_eq_revise hk with ⟨b, -, rfl⟩ | ⟨f, -, rfl⟩
  · exact ho.spawn h b
  · exact ho.revise h f

theorem Draft.planted_outlineFrom (d : Draft σ ε) {o : Outline σ ε} (ho : o.Planted) :
    (d.outlineFrom o).Planted :=
  d.keeps (P := Outline.Planted) (fun _ _ _ _ hk => BranchCall.planted hk) o ho

theorem Draft.planted (d : Draft σ ε) : d.outline.Planted :=
  d.planted_outlineFrom Outline.Planted.root

/-- What writing at a handle does to the arena: it adds an entry, which becomes the last child
of the handle's, or puts another branch into the handle's entry. -/
inductive Outline.ArenaStep (o : Outline σ ε) (h : Handle) :
    Branch.Write σ ε → Handle → Outline σ ε → Prop
  | added {o' : Outline σ ε} {b : Branch σ ε}
      (harena : o'.arena = o.arena.modify h.number
        (fun e => (e.1, e.2 ++ [{ number := o.size }])) ++ [(b, [])]) :
      ArenaStep o h (.added b) { number := o.size } o'
  | changed {o' : Outline σ ε} {b : Branch σ ε}
      (harena : o'.arena = o.arena.modify h.number fun e => (b, e.2)) :
      ArenaStep o h (.changed b) h o'

theorem BranchCall.arenaStep {k : BranchCall σ ε} {o o' : Outline σ ε} {h h' : Handle}
    (ho : o.Planted) (hh : h ∈ o.handles) (hk : k.apply o h = .ok (h', o')) :
    o.ArenaStep h (k.write (o.branch h)) h' o' := by
  rcases eq_spawn_or_eq_revise hk with ⟨b, hb, heq⟩ | ⟨f, hf, heq⟩
  · cases heq
    rw [hb]
    exact .added (ho.arena_spawn hh b)
  · cases heq
    rw [hf]
    exact .changed (ho.arena_revise hh f)

/-- Whatever a draft does, it leaves a tree behind: children come after their parents, all
branches are reached from the root, each once, and the way down ends.  What is built from
a handle is the transition of its branch, if that is complete, and then what is built from
its children in order.  The root therefore yields the transitions of all complete branches
and every other handle a stretch of these.  A call that is not refused writes to the arena what
is to be written for it, at the handle on which it is made. -/
theorem Draft.builds_tree (d : Draft σ ε) :
    let o := d.outline
    o.Tree ∧
    (∀ h ∈ o.handles, ReflTransGen (fun p c => c ∈ o.children p) Handle.root h) ∧
    (WellFounded fun c p => c ∈ o.children p) ∧
    (∀ h, o.transitionsFrom h =
      (o.branch h).transition?.toList ++ (o.children h).flatMap o.transitionsFrom) ∧
    (o.transitionsFrom Handle.root).Perm
      (o.handles.filterMap fun h => (o.branch h).transition?) ∧
    (o.transitionsFrom Handle.root).length =
      (o.handles.countP fun h => (o.branch h).isComplete) ∧
    (∀ h ∈ o.handles, o.transitionsFrom h <:+: o.transitionsFrom Handle.root) ∧
    ∀ h ∈ o.handles, ∀ (k : BranchCall σ ε) h' o',
      k.apply o h = .ok (h', o') → o.ArenaStep h (k.write (o.branch h)) h' o' := by
  intro o
  have ho : o.Planted := d.planted
  refine ⟨ho.tree, ?_, ho.wellFounded_children, ho.transitionsFrom_eq,
    ho.perm_transitionsFrom_root, ho.length_transitionsFrom_root, ?_, ?_⟩
  · intro h hh
    exact ho.reached hh
  · intro h hh
    exact ho.infix_transitionsFrom_root hh
  · intro h hh k h' o' hk
    exact BranchCall.arenaStep ho hh hk

/-- A block that is given up half-way leaves what it has built. -/
example :
    let giveUp : Except BranchError Handle → Draft Unit Unit
      | .ok _ => .done
      | .error e => .refuse e
    let draft : Draft Unit Unit :=
      .within Handle.root "hall" (fun hall => .call hall (.goTo "room") fun _ =>
        .call hall (.goTo "street") giveUp) fun _ => .done
    draft.outline.transitionsFrom Handle.root = [{ source := "hall", target := "room" }] :=
  rfl

end Turnstile
