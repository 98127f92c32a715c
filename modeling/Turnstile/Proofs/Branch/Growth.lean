import Mathlib.Data.List.Flatten
import Mathlib.Data.List.Infix
import Turnstile.Proofs.Branch.Draft

/-!
# Outlines only grow

Whatever is done to an outline, it grows: no branch goes away, the branches below a branch
come to stand behind those that are there, and what a branch says settles bit by bit.  This
holds of each call (`BranchCall.growsTo`) and so of every draft (`Draft.growsTo`).  What is
built from a handle before is therefore found, in the same order, in what is built from it
later (`GrowsTo.sublist_transitionsFrom`).

A call that is refused leaves the outline alone, and `BranchCall.Refused` says of which
branches a call is refused and why.
-/

namespace Turnstile

variable {σ ε : Type}

/-- Where a transition leads and when it may be made. -/
def Transition.way (t : Transition σ ε) : String × String × Option (Condition σ ε) × Bool :=
  (t.source, t.target, t.condition, t.negate)

namespace Branch.Settles

variable {b b' b'' : Branch σ ε}

theorem refl (b : Branch σ ε) : b.Settles b := ⟨rfl, rfl, rfl, fun _ h => h⟩

theorem trans (h : b.Settles b') (h' : b'.Settles b'') : b.Settles b'' where
  source := h'.source.trans h.source
  condition := h'.condition.trans h.condition
  negate := h'.negate.trans h.negate
  target := fun name hname => h'.target name (h.target name hname)

theorem isComplete (h : b.Settles b') (hb : b.isComplete = true) : b'.isComplete = true := by
  rw [Branch.isComplete, Bool.and_eq_true] at hb ⊢
  obtain ⟨target, htarget⟩ := Option.isSome_iff_exists.mp hb.2
  rw [h.source, h.target target htarget]
  exact ⟨hb.1, rfl⟩

theorem way_of_transition? (h : b.Settles b') {t : Transition σ ε} (ht : b.transition? = some t) :
    ∃ t', b'.transition? = some t' ∧ t'.way = t.way := by
  unfold transition? at ht ⊢
  cases hsource : b.source with
  | none => simp [hsource] at ht
  | some source =>
    cases htarget : b.target with
    | none => simp [hsource, htarget] at ht
    | some target =>
      simp only [hsource, htarget, Option.some.injEq] at ht
      rw [h.source, h.target target htarget, hsource]
      refine ⟨_, rfl, ?_⟩
      rw [← ht, Transition.way, Transition.way, h.condition, h.negate]

theorem sublist_transition? (h : b.Settles b') :
    (b.transition?.toList.map Transition.way).Sublist
      (b'.transition?.toList.map Transition.way) := by
  cases ht : b.transition? with
  | none => exact List.nil_sublist _
  | some t =>
    obtain ⟨t', ht', hway⟩ := h.way_of_transition? ht
    rw [ht', Option.toList_some, Option.toList_some, List.map_singleton, List.map_singleton, hway]

end Branch.Settles

namespace Outline

/-- What has become of an outline: its branches are still there and have settled, with those
below them at the front. -/
structure GrowsTo (o o' : Outline σ ε) : Prop where
  handles : o.handles ⊆ o'.handles
  branch : ∀ h ∈ o.handles, (o.branch h).Settles (o'.branch h)
  children : ∀ h ∈ o.handles, o.children h <+: o'.children h

namespace GrowsTo

theorem refl (o : Outline σ ε) : o.GrowsTo o where
  handles := fun _ hi => hi
  branch := fun _ _ => .refl _
  children := fun _ _ => List.prefix_refl _

theorem trans {o o' o'' : Outline σ ε} (h : o.GrowsTo o') (h' : o'.GrowsTo o'') :
    o.GrowsTo o'' where
  handles := fun _ hi => h'.handles (h.handles hi)
  branch := fun i hi => (h.branch i hi).trans (h'.branch i (h.handles hi))
  children := fun i hi => (h.children i hi).trans (h'.children i (h.handles hi))

end GrowsTo

namespace Planted

variable {o o' : Outline σ ε}

theorem growsTo_spawn (ho : o.Planted) (h : Handle) (b : Branch σ ε) :
    o.GrowsTo (o.spawn h b).2 := by
  by_cases hh : h ∈ o.handles
  · constructor
    case handles =>
      intro i hi
      rw [mem_handles_iff] at hi ⊢
      rw [ho.size_spawn hh]
      exact Nat.lt_succ_of_lt hi
    case branch =>
      intro i hi
      have hold : i ≠ (o.spawn h b).1 := fun heq => spawned_notMem_handles o h b (heq ▸ hi)
      rw [ho.branch_spawn hh, if_neg hold]
      exact .refl _
    case children =>
      intro i _
      rw [ho.children_spawn hh]
      by_cases hi : i = h
      · rw [if_pos hi, hi]
        exact List.prefix_append _ _
      · rw [if_neg hi]
  · rw [ho.spawn_eq_of_notMem hh]
    exact .refl o

theorem growsTo_revise (ho : o.Planted) {h : Handle} {f : Branch σ ε → Branch σ ε}
    (hf : (o.branch h).Settles (f (o.branch h))) : o.GrowsTo (o.revise h f).2 := by
  by_cases hh : h ∈ o.handles
  · constructor
    case handles =>
      rw [handles_revise]
      exact fun _ hi => hi
    case branch =>
      intro i _
      rw [ho.branch_revise hh]
      by_cases hi : i = h
      · rw [if_pos hi, hi]
        exact hf
      · rw [if_neg hi]
        exact .refl _
    case children =>
      intro i _
      rw [children_revise]
  · rw [ho.revise_eq_of_notMem hh]
    exact .refl o

theorem branch_eq_of_notMem (ho : o.Planted) {h : Handle} (hh : h ∉ o.handles) :
    o.branch h = {} := by
  rw [branch_eq_of_entryAt?, ho.entryAt?_eq_none hh]
  rfl

theorem transitionsFrom_eq_nil (ho : o.Planted) {h : Handle} (hh : h ∉ o.handles) :
    o.transitionsFrom h = [] := by
  rw [ho.transitionsFrom_eq, ho.branch_eq_of_notMem hh, ho.children_eq_nil hh]
  rfl

end Planted

/-- What is built from a handle stays, in its order, as the outline grows. -/
theorem GrowsTo.sublist_transitionsFrom {o o' : Outline σ ε} (hg : o.GrowsTo o')
    (ho : o.Planted) (ho' : o'.Planted) (h : Handle) :
    ((o.transitionsFrom h).map Transition.way).Sublist
      ((o'.transitionsFrom h).map Transition.way) := by
  -- the children of a handle are further down, and the way down ends
  induction h using ho.wellFounded_children.induction with
  | _ h ih =>
    by_cases hh : h ∈ o.handles
    · have hbelow :
          ((o.children h).flatMap fun c => (o.transitionsFrom c).map Transition.way).Sublist
            ((o'.children h).flatMap fun c => (o'.transitionsFrom c).map Transition.way) :=
        (List.Sublist.flatMap_right _ ih).trans ((hg.children h hh).sublist.flatMap _)
      rw [ho.transitionsFrom_eq, ho'.transitionsFrom_eq, List.map_append, List.map_append,
        List.map_flatMap, List.map_flatMap]
      exact (hg.branch h hh).sublist_transition?.append hbelow
    · rw [ho.transitionsFrom_eq_nil hh]
      exact List.nil_sublist _

theorem GrowsTo.isComplete {o o' : Outline σ ε} (hg : o.GrowsTo o') (ho : o.Planted) {h : Handle}
    (hcomplete : (o.branch h).isComplete = true) : (o'.branch h).isComplete = true := by
  by_cases hh : h ∈ o.handles
  · exact (hg.branch h hh).isComplete hcomplete
  · rw [ho.branch_eq_of_notMem hh] at hcomplete
    cases hcomplete

end Outline

/-! ## Calls and drafts -/

theorem BranchCall.growsTo {k : BranchCall σ ε} {o : Outline σ ε} {h : Handle}
    {answer : Handle × Outline σ ε} (hk : k.apply o h = .ok answer) (ho : o.Planted) :
    o.GrowsTo answer.2 := by
  rcases eq_spawn_or_eq_revise hk with ⟨b, -, rfl⟩ | ⟨f, hf, rfl⟩
  · exact ho.growsTo_spawn h b
  · exact ho.growsTo_revise (settles_of_write hk hf)

theorem Draft.growsTo (d : Draft σ ε) {o : Outline σ ε} (ho : o.Planted) :
    o.GrowsTo (d.outlineFrom o) := by
  have hkept : o.Planted ∧ o.GrowsTo o := ⟨ho, .refl o⟩
  refine (d.keeps (P := fun o' => o'.Planted ∧ o.GrowsTo o') ?_ o hkept).2
  intro o' h k answer hk ho'
  exact ⟨BranchCall.planted hk ho'.1, ho'.2.trans (BranchCall.growsTo hk ho'.1)⟩

namespace BranchCall

/-- The calls that are refused on a branch, with the refusals. -/
inductive Refused (b : Branch σ ε) : BranchCall σ ε → BranchError → Prop
  | startAt {name source : String} (hsource : b.source = some source) :
      Refused b (.startAt name) (.sourceAlreadySet source)
  | goTo {name target : String} (htarget : b.target = some target) :
      Refused b (.goTo name) (.targetAlreadySet target)
  | stay (hsource : b.source = none) : Refused b .stay .stayWithoutSource
  | stayAgain {source target : String} (hsource : b.source = some source)
      (htarget : b.target = some target) : Refused b .stay (.targetAlreadySet target)
  | otherwise (hcondition : b.condition = none) : Refused b .otherwise .elseWithoutCondition

theorem goTo_eq_error_iff {o : Outline σ ε} {h : Handle} {name : String} {e : BranchError} :
    o.goTo h name = .error e ↔
      ∃ target, (o.branch h).target = some target ∧ e = .targetAlreadySet target := by
  unfold Outline.goTo
  cases (o.branch h).target with
  | none => simp
  | some target => simp [eq_comm]

theorem apply_eq_error_iff {k : BranchCall σ ε} {o : Outline σ ε} {h : Handle} {e : BranchError} :
    k.apply o h = .error e ↔ k.Refused (o.branch h) e := by
  constructor
  · intro hk
    cases k with
    | onlyIf c | onlyUnless c | otherwiseIf c | doing a | describe text => cases hk
    | startAt name =>
      unfold apply Outline.startAt at hk
      cases hsource : (o.branch h).source with
      | none =>
        rw [hsource] at hk
        cases hk
      | some source =>
        rw [hsource] at hk
        cases hk
        exact .startAt hsource
    | goTo name =>
      obtain ⟨target, htarget, rfl⟩ := goTo_eq_error_iff.mp hk
      exact .goTo htarget
    | stay =>
      unfold apply Outline.stay at hk
      cases hsource : (o.branch h).source with
      | none =>
        rw [hsource] at hk
        cases hk
        exact .stay hsource
      | some source =>
        rw [hsource] at hk
        obtain ⟨target, htarget, rfl⟩ := goTo_eq_error_iff.mp hk
        exact .stayAgain hsource htarget
    | otherwise =>
      unfold apply Outline.otherwise at hk
      cases hcondition : (o.branch h).condition with
      | none =>
        simp only [hcondition] at hk
        cases hk
        exact .otherwise hcondition
      | some c =>
        simp only [hcondition] at hk
        cases hk
  · intro hrefused
    cases hrefused with
    | startAt hsource =>
      unfold apply Outline.startAt
      rw [hsource]
    | goTo htarget => exact goTo_eq_error_iff.mpr ⟨_, htarget, rfl⟩
    | stay hsource =>
      unfold apply Outline.stay
      rw [hsource]
    | stayAgain hsource htarget =>
      unfold apply Outline.stay
      rw [hsource]
      exact goTo_eq_error_iff.mpr ⟨_, htarget, rfl⟩
    | otherwise hcondition =>
      unfold apply Outline.otherwise
      simp only [hcondition]

/-- A call that is refused leaves the outline as it was. -/
theorem run_on_eq_error_iff {k : BranchCall σ ε} {h : Handle} {o o' : Outline σ ε}
    {e : BranchError} :
    Id.run ((k.on h).runOn o) = (.error e, o') ↔ o' = o ∧ k.Refused (o.branch h) e := by
  rw [on_eq_call, BuildT.run_call, ← apply_eq_error_iff]
  cases hk : k.apply o h with
  | ok answer => simp
  | error refusal => simp [eq_comm, and_comm]

end BranchCall

/-- The block of a branch that cannot be added does not run. -/
theorem Handle.run_startAtWith_of_source {h : Handle} {o : Outline σ ε} {source : String}
    (hsource : (o.branch h).source = some source) (name : String)
    (body : Handle → Build σ ε Unit) :
    Id.run ((h.startAtWith name body).runOn o) = (.error (.sourceAlreadySet source), o) := by
  have hrefused : Id.run ((h.startAt name : Build σ ε Handle).runOn o) =
      (.error (.sourceAlreadySet source), o) :=
    BranchCall.run_on_eq_error_iff.mpr ⟨rfl, .startAt hsource⟩
  rw [Handle.startAtWith, BuildT.run_bind, hrefused]

/-- What one draft has built another draft cannot take back: from every handle the same
transitions are built as before, but for their actions and descriptions, with new ones among
them, and what is complete stays complete.  A call that is refused leaves the outline as it
is, and it is refused just for a source or a target that is there, for a source that is not
there to stay at, and for a condition that is not there to fail. -/
theorem Draft.writes_once (d more : Draft σ ε) :
    let o := d.outline
    let o' := more.outlineFrom o
    (∀ h, ((o.transitionsFrom h).map Transition.way).Sublist
      ((o'.transitionsFrom h).map Transition.way)) ∧
    (∀ h, (o.branch h).isComplete = true → (o'.branch h).isComplete = true) ∧
    (∀ h (k : BranchCall σ ε) e o₁,
      Id.run ((k.on h).runOn o) = (.error e, o₁) ↔ o₁ = o ∧ k.Refused (o.branch h) e) ∧
    ∀ h source name (body : Handle → Build σ ε Unit), (o.branch h).source = some source →
      Id.run ((h.startAtWith name body).runOn o) = (.error (.sourceAlreadySet source), o) := by
  intro o o'
  have ho : o.Planted := d.planted
  have hgrown : o.GrowsTo o' := more.growsTo ho
  refine ⟨?_, ?_, ?_, ?_⟩
  · exact hgrown.sublist_transitionsFrom ho (more.planted_outlineFrom ho)
  · exact fun _ => hgrown.isComplete ho
  · exact fun _ _ _ _ => BranchCall.run_on_eq_error_iff
  · exact fun _ _ name body hsource => Handle.run_startAtWith_of_source hsource name body

theorem Draft.writes_once_hall :
    let hall : Handle := { number := 1 }
    let d : Draft Unit Unit :=
      .call Handle.root (.startAt "hall") fun _ => .call hall (.goTo "room") fun _ => .done
    let more : Draft Unit Unit := .call hall (.onlyIf (.named "open")) fun _ => .done
    [("hall", "room", none, false)].Sublist
      (((more.outlineFrom d.outline).transitionsFrom Handle.root).map Transition.way) ∧
    ((more.outlineFrom d.outline).branch hall).isComplete = true ∧
    Id.run (((BranchCall.goTo "street").on hall).runOn d.outline) =
      (.error (.targetAlreadySet "room"), d.outline) ∧
    Id.run ((hall.startAtWith "yard" fun _ => throw .elseWithoutCondition).runOn d.outline) =
      (.error (.sourceAlreadySet "hall"), d.outline) := by
  intro hall d more
  obtain ⟨hkept, hcomplete, hrefused, hblock⟩ := Draft.writes_once d more
  refine ⟨hkept Handle.root, hcomplete hall rfl, ?_, ?_⟩
  · exact (hrefused hall (.goTo "street") _ _).mpr ⟨rfl, .goTo rfl⟩
  · exact hblock hall "hall" "yard" _ rfl

end Turnstile
