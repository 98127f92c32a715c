import Turnstile.Proofs.Branch.Growth

/-!
# Where sources come from

A branch gets a source in one of two ways.  The call that adds it may name the source, and
then the branch above it has none; any other call passes on the source of the branch above,
if there is one.  `Sourced` says so of all branches of an outline and of the branches at
which a source was named, and every call keeps it (`Sourced.made`).  A source therefore
governs all that is built below the branch at which it was named
(`Sourced.source_of_below`), and on the way down to a branch with a source there is just one
at which a source was named (`Sourced.exists_start`, `Sourced.start_unique`).
-/

namespace Turnstile

open Relation

variable {σ ε : Type}

/-! ## Ways down a tree -/

namespace Outline

/-- The second branch is the first one or stands somewhere below it. -/
def Below (o : Outline σ ε) : Handle → Handle → Prop := ReflTransGen fun p c => c ∈ o.children p

namespace Planted

variable {o : Outline σ ε}

theorem mem_handles_of_mem_children (ho : o.Planted) {p c : Handle} (hc : c ∈ o.children p) :
    p ∈ o.handles ∧ c ∈ o.handles := by
  refine ⟨?_, (ho.tree.later p c hc).2⟩
  by_contra hmissing
  rw [ho.children_eq_nil hmissing] at hc
  cases hc

theorem root_mem_handles (ho : o.Planted) : Handle.root ∈ o.handles := by
  rw [ho.handles_eq_cons]
  exact List.mem_cons_self

theorem parent_unique (ho : o.Planted) {p q c : Handle} (hp : c ∈ o.children p)
    (hq : c ∈ o.children q) : p = q := by
  have hnodup : (o.handles.flatMap o.children).Nodup :=
    ho.tree.once.nodup_iff.mpr (nodup_handles o).tail
  have hapart := (List.nodup_flatMap.mp hnodup).2
  have hsymm : Std.Symm (Function.onFun List.Disjoint o.children) := ⟨fun _ _ h _ hx hy => h hy hx⟩
  by_contra hne
  exact hapart.forall (ho.mem_handles_of_mem_children hp).1
    (ho.mem_handles_of_mem_children hq).1 hne hp hq

/-- Of two branches on the way down to a third, one stands below the other. -/
theorem below_or_below (ho : o.Planted) {c c' i : Handle} (hc : o.Below c i)
    (hc' : o.Below c' i) : o.Below c c' ∨ o.Below c' c := by
  have hup : Relator.RightUnique (Function.swap fun p c => c ∈ o.children p) :=
    fun _ _ _ hp hq => ho.parent_unique hp hq
  have htotal := ReflTransGen.total_of_right_unique hup (reflTransGen_swap.mpr hc)
    (reflTransGen_swap.mpr hc')
  exact htotal.symm.imp reflTransGen_swap.mp reflTransGen_swap.mp

/-- What is built from a handle is the transition of a branch below it. -/
theorem exists_below_of_mem (ho : o.Planted) {h : Handle} {t : Transition σ ε}
    (ht : t ∈ o.transitionsFrom h) : ∃ i, o.Below h i ∧ (o.branch i).transition? = some t := by
  induction h using ho.wellFounded_children.induction with
  | _ h ih =>
    rw [ho.transitionsFrom_eq, List.mem_append, Option.mem_toList, List.mem_flatMap] at ht
    rcases ht with ht | ⟨c, hc, ht⟩
    · exact ⟨h, .refl, ht⟩
    · obtain ⟨i, hi, hti⟩ := ih c hc ht
      exact ⟨i, hi.head hc, hti⟩

end Planted
end Outline

theorem Branch.source_of_transition? {b : Branch σ ε} {t : Transition σ ε}
    (ht : b.transition? = some t) : b.source = some t.source := by
  unfold transition? at ht
  split at ht
  · next source target hsource _ =>
    obtain rfl := Option.some.inj ht
    exact hsource
  · cases ht

/-! ## Branches at which a source is named -/

namespace Outline

/-- Each of the listed branches has the source that is listed with it, below a branch that has
none, and all other branches have the source of the branch right above them. -/
structure Sourced (o : Outline σ ε) (starts : List (Handle × String)) : Prop where
  planted : o.Planted
  root : (o.branch Handle.root).source = none
  distinct : (starts.map Prod.fst).Nodup
  mem : ∀ e ∈ starts, e.1 ∈ o.handles
  named : ∀ e ∈ starts, (o.branch e.1).source = some e.2
  above : ∀ e ∈ starts, ∀ p, e.1 ∈ o.children p → (o.branch p).source = none
  passed : ∀ p, ∀ c ∈ o.children p, c ∉ starts.map Prod.fst →
    (o.branch c).source = (o.branch p).source

namespace Sourced

variable {o : Outline σ ε} {starts : List (Handle × String)}

theorem start : (Outline.root : Outline σ ε).Sourced [] where
  planted := .root
  root := rfl
  distinct := List.nodup_nil
  mem := nofun
  named := nofun
  above := nofun
  passed := by
    intro p c hc
    obtain rfl := List.mem_singleton.mp (Planted.root.mem_handles_of_mem_children hc).1
    cases hc

/-! ### What is below a branch -/

theorem source_of_child (hs : o.Sourced starts) {p c : Handle} {a : String}
    (hc : c ∈ o.children p) (hp : (o.branch p).source = some a) :
    (o.branch c).source = some a := by
  have hpassed : c ∉ starts.map Prod.fst := by
    intro hmem
    obtain ⟨e, he, rfl⟩ := List.mem_map.mp hmem
    rw [hs.above e he p hc] at hp
    cases hp
  rw [hs.passed p c hc hpassed, hp]

theorem source_of_below (hs : o.Sourced starts) {p i : Handle} {a : String}
    (hi : o.Below p i) (hp : (o.branch p).source = some a) : (o.branch i).source = some a := by
  induction hi with
  | refl => exact hp
  | tail _ hc ih => exact hs.source_of_child hc ih

/-- On the way down to a branch with a source there is one at which it was named. -/
theorem exists_start (hs : o.Sourced starts) {i : Handle} {a : String}
    (hi : o.Below Handle.root i) (ha : (o.branch i).source = some a) :
    ∃ c, (c, a) ∈ starts ∧ o.Below Handle.root c ∧ o.Below c i := by
  induction hi with
  | refl =>
    rw [hs.root] at ha
    cases ha
  | @tail p c hp hc ih =>
    by_cases hmem : c ∈ starts.map Prod.fst
    · obtain ⟨⟨_, name⟩, he, rfl⟩ := List.mem_map.mp hmem
      obtain rfl : name = a := Option.some.inj ((hs.named _ he).symm.trans ha)
      exact ⟨_, he, hp.tail hc, .refl⟩
    · rw [hs.passed p c hc hmem] at ha
      obtain ⟨d, hd, hroot, hdown⟩ := ih ha
      exact ⟨d, hd, hroot, hdown.tail hc⟩

theorem eq_of_below (hs : o.Sourced starts) {e e' : Handle × String} (he : e ∈ starts)
    (he' : e' ∈ starts) (hbelow : o.Below e.1 e'.1) : e = e' := by
  rcases ReflTransGen.cases_tail hbelow with heq | ⟨p, hp, hc⟩
  · exact (List.inj_on_of_nodup_map hs.distinct he' he heq).symm
  · have hsource := hs.source_of_below hp (hs.named e he)
    rw [hs.above e' he' p hc] at hsource
    cases hsource

/-- There is no other one at which a source was named. -/
theorem start_unique (hs : o.Sourced starts) {e e' : Handle × String} {i : Handle}
    (he : e ∈ starts) (he' : e' ∈ starts) (hi : o.Below e.1 i) (hi' : o.Below e'.1 i) :
    e = e' := by
  rcases hs.planted.below_or_below hi hi' with hbelow | hbelow
  · exact hs.eq_of_below he he' hbelow
  · exact (hs.eq_of_below he' he hbelow).symm

/-- Everything below a branch at which a source was named is built from that source. -/
theorem source_of_mem (hs : o.Sourced starts) {e : Handle × String} (he : e ∈ starts)
    {t : Transition σ ε} (ht : t ∈ o.transitionsFrom e.1) : t.source = e.2 := by
  obtain ⟨i, hi, hti⟩ := hs.planted.exists_below_of_mem ht
  have hsource := hs.source_of_below hi (hs.named e he)
  rw [Branch.source_of_transition? hti] at hsource
  exact Option.some.inj hsource

/-! ### What calls keep -/

theorem revise (hs : o.Sourced starts) {h : Handle} {f : Branch σ ε → Branch σ ε}
    (hf : (o.branch h).Settles (f (o.branch h))) : (o.revise h f).2.Sourced starts := by
  have hsource : ∀ i, ((o.revise h f).2.branch i).source = (o.branch i).source := by
    intro i
    by_cases hh : h ∈ o.handles
    · rw [hs.planted.branch_revise hh]
      by_cases hi : i = h
      · rw [if_pos hi, hf.source, hi]
      · rw [if_neg hi]
    · rw [hs.planted.revise_eq_of_notMem hh]
  constructor
  case planted => exact hs.planted.revise h f
  case root =>
    rw [hsource]
    exact hs.root
  case distinct => exact hs.distinct
  case mem =>
    rw [handles_revise]
    exact hs.mem
  case named =>
    intro e he
    rw [hsource]
    exact hs.named e he
  case above =>
    intro e he p hp
    rw [children_revise] at hp
    rw [hsource]
    exact hs.above e he p hp
  case passed =>
    intro p c hc hmem
    rw [children_revise] at hc
    rw [hsource, hsource]
    exact hs.passed p c hc hmem

section Spawn

variable {h : Handle} {b : Branch σ ε}

theorem source_spawn_of_ne (hs : o.Sourced starts) (hh : h ∈ o.handles) {i : Handle}
    (hi : i ≠ (o.spawn h b).1) : ((o.spawn h b).2.branch i).source = (o.branch i).source := by
  rw [hs.planted.branch_spawn hh, if_neg hi]

/-- The branch that is added is the only new one below another, and stands below nothing
else. -/
theorem mem_children_spawn (hs : o.Sourced starts) (hh : h ∈ o.handles) {p c : Handle}
    (hc : c ∈ (o.spawn h b).2.children p) :
    c ∈ o.children p ∧ p ≠ (o.spawn h b).1 ∧ c ≠ (o.spawn h b).1 ∨
      p = h ∧ c = (o.spawn h b).1 := by
  have hfresh := spawned_notMem_handles o h b
  have hold : c ∈ o.children p → p ≠ (o.spawn h b).1 ∧ c ≠ (o.spawn h b).1 := by
    intro hc
    obtain ⟨hp, hc⟩ := hs.planted.mem_handles_of_mem_children hc
    exact ⟨fun heq => hfresh (heq ▸ hp), fun heq => hfresh (heq ▸ hc)⟩
  rw [hs.planted.children_spawn hh] at hc
  by_cases hp : p = h
  · rw [if_pos hp, List.mem_append, List.mem_singleton, ← hp] at hc
    rcases hc with hc | hc
    · exact .inl ⟨hc, hold hc⟩
    · exact .inr ⟨hp, hp ▸ hc⟩
  · rw [if_neg hp] at hc
    exact .inl ⟨hc, hold hc⟩

theorem spawned_notMem (hs : o.Sourced starts) :
    (o.spawn h b).1 ∉ starts.map Prod.fst := by
  intro hmem
  obtain ⟨e, he, heq⟩ := List.mem_map.mp hmem
  exact spawned_notMem_handles o h b (heq ▸ hs.mem e he)

/-- The source of a branch that is added is that of the branch above it or is named by the call;
in the second case the new branch is listed. -/
theorem spawn (hs : o.Sourced starts) (hh : h ∈ o.handles) {name? : Option String}
    (hb : b.source = (o.branch h).source.or name?)
    (hnamed : ∀ name, name? = some name → (o.branch h).source = none) :
    (o.spawn h b).2.Sourced (starts ++ (name?.map ((o.spawn h b).1, ·)).toList) := by
  have hne : ∀ e ∈ starts, e.1 ≠ (o.spawn h b).1 := by
    intro e he heq
    exact hs.spawned_notMem (heq ▸ List.mem_map_of_mem he : (o.spawn h b).1 ∈ _)
  have hnot : ∀ i ∈ o.handles, i ≠ (o.spawn h b).1 := by
    intro i hi heq
    exact spawned_notMem_handles o h b (heq ▸ hi)
  have hnew : (o.spawn h b).2.branch (o.spawn h b).1 = b := by
    rw [hs.planted.branch_spawn hh, if_pos rfl]
  have hlisted : ∀ e ∈ starts ++ (name?.map ((o.spawn h b).1, ·)).toList,
      e ∈ starts ∨ ∃ name, name? = some name ∧ e = ((o.spawn h b).1, name) := by
    intro e he
    rw [List.mem_append, Option.mem_toList, Option.map_eq_some_iff] at he
    exact he.imp_right fun ⟨name, hname, heq⟩ => ⟨name, hname, heq.symm⟩
  constructor
  case planted => exact hs.planted.spawn h b
  case root =>
    rw [hs.source_spawn_of_ne hh (hnot _ hs.planted.root_mem_handles)]
    exact hs.root
  case distinct =>
    cases name? with
    | none =>
      rw [Option.map_none, Option.toList_none, List.append_nil]
      exact hs.distinct
    | some name =>
      rw [Option.map_some, Option.toList_some, List.map_append, List.map_singleton,
        ← List.concat_eq_append]
      exact hs.distinct.concat (hs.spawned_notMem (h := h) (b := b))
  case mem =>
    intro e he
    rcases hlisted e he with he | ⟨name, -, rfl⟩
    · exact (hs.planted.growsTo_spawn h b).handles (hs.mem e he)
    · exact hs.planted.spawned_mem_handles hh b
  case named =>
    intro e he
    rcases hlisted e he with he | ⟨name, hname, rfl⟩
    · rw [hs.source_spawn_of_ne hh (hne e he)]
      exact hs.named e he
    · rw [hnew, hb, hnamed name hname, hname]
      rfl
  case above =>
    intro e he p hp
    rcases hlisted e he with he | ⟨name, hname, rfl⟩
    · rcases hs.mem_children_spawn hh hp with ⟨hp, hold, -⟩ | ⟨-, heq⟩
      · rw [hs.source_spawn_of_ne hh hold]
        exact hs.above e he p hp
      · exact absurd heq (hne e he)
    · rcases hs.mem_children_spawn hh hp with ⟨-, -, hold⟩ | ⟨rfl, -⟩
      · exact absurd rfl hold
      · rw [hs.source_spawn_of_ne hh (hnot _ hh)]
        exact hnamed name hname
  case passed =>
    intro p c hc hmem
    rw [List.map_append, List.mem_append, not_or] at hmem
    rcases hs.mem_children_spawn hh hc with ⟨hc, hp, hold⟩ | ⟨rfl, rfl⟩
    · rw [hs.source_spawn_of_ne hh hp, hs.source_spawn_of_ne hh hold]
      exact hs.passed p c hc hmem.1
    · cases name? with
      | none => rw [hs.source_spawn_of_ne hh (hnot _ hh), hnew, hb, Option.or_none]
      | some name => exact absurd List.mem_cons_self hmem.2

end Spawn

end Sourced
end Outline

/-! ## The calls of a draft -/

/-- A call on a branch of an outline, and what it was answered. -/
structure MadeCall (σ ε : Type) where
  handle : Handle
  call : BranchCall σ ε
  answer : Except BranchError Handle

/-- The branch that a call has led to, with the source that it was given there. -/
def MadeCall.start? (m : MadeCall σ ε) : Option (Handle × String) :=
  match m.answer with
  | .ok i => m.call.source?.map (i, ·)
  | .error _ => none

namespace Outline

/-- The calls are made one after the other, each on a branch that the outline has at the time,
and lead from the first outline to the last. -/
inductive Becomes : Outline σ ε → List (MadeCall σ ε) → Outline σ ε → Prop
  | nil (o : Outline σ ε) : Becomes o [] o
  | cons {o o' o'' : Outline σ ε} {h : Handle} {k : BranchCall σ ε}
      {answer : Except BranchError Handle} {rest : List (MadeCall σ ε)} (hh : h ∈ o.handles)
      (hcall : Id.run ((k.on h).runOn o) = (answer, o')) (hrest : Becomes o' rest o'') :
      Becomes o ({ handle := h, call := k, answer } :: rest) o''

theorem Becomes.append {o o' o'' : Outline σ ε} {made made' : List (MadeCall σ ε)}
    (h : o.Becomes made o') (h' : o'.Becomes made' o'') : o.Becomes (made ++ made') o'' := by
  induction h with
  | nil => exact h'
  | cons hh hcall _ ih => exact .cons hh hcall (ih h')

theorem Sourced.made {o o' : Outline σ ε} {starts : List (Handle × String)}
    (hs : o.Sourced starts) {h : Handle} (hh : h ∈ o.handles) {k : BranchCall σ ε}
    {answer : Except BranchError Handle} (hcall : Id.run ((k.on h).runOn o) = (answer, o')) :
    o'.Sourced (starts ++ (MadeCall.start? { handle := h, call := k, answer }).toList) := by
  rw [BranchCall.on_eq_call, BuildT.run_call] at hcall
  cases hk : k.apply o h with
  | error e =>
    rw [hk] at hcall
    obtain ⟨rfl, rfl⟩ := Prod.mk.inj hcall
    rw [MadeCall.start?, Option.toList_none, List.append_nil]
    exact hs
  | ok made =>
    rw [hk] at hcall
    obtain ⟨rfl, rfl⟩ := Prod.mk.inj hcall
    rcases BranchCall.eq_spawn_or_eq_revise hk with ⟨b, hb, rfl⟩ | ⟨f, hf, rfl⟩
    · exact hs.spawn hh (BranchCall.source_of_write hk hb) fun _ =>
        BranchCall.source_eq_none_of_apply hk
    · have hnone := BranchCall.source?_eq_none_of_write hf
      have hstart : MadeCall.start? { handle := h, call := k, answer := .ok (o.revise h f).1 } =
          none := by
        rw [MadeCall.start?, hnone]
        rfl
      rw [hstart, Option.toList_none, List.append_nil]
      exact hs.revise (BranchCall.settles_of_write hk hf)

theorem Becomes.sourced {o o' : Outline σ ε} {made : List (MadeCall σ ε)}
    (h : o.Becomes made o') {starts : List (Handle × String)} (hs : o.Sourced starts) :
    o'.Sourced (starts ++ made.filterMap MadeCall.start?) := by
  induction h generalizing starts with
  | nil =>
    rw [List.filterMap_nil, List.append_nil]
    exact hs
  | @cons o o' o'' h k answer rest hh hcall _ ih =>
    have hrow := ih (hs.made hh hcall)
    rw [List.append_assoc] at hrow
    rw [List.filterMap_cons]
    cases hstart : MadeCall.start? { handle := h, call := k, answer } with
    | none =>
      rw [hstart] at hrow
      exact hrow
    | some e =>
      rw [hstart] at hrow
      exact hrow

end Outline

namespace Draft

/-- The calls that a draft makes on the branches of an outline as it changes it, those of its
blocks included.  A call on a handle that stands for no branch changes nothing, and is not
listed. -/
def made : Draft σ ε → Outline σ ε → List (MadeCall σ ε)
  | done, _ | refuse _, _ => []
  | call h k next, o =>
    let (answer, o') := Id.run ((k.on h).runOn o)
    (if h ∈ o.handles then [{ handle := h, call := k, answer }] else []) ++ (next answer).made o'
  | within h name body next, o =>
    let (start, o₁) := Id.run ((h.startAt name).runOn o)
    let (answer, o') := Id.run
      ((h.startAtWith name fun child => (body child).build).runOn o)
    let inside :=
      match start with
      | .ok child => (body child).made o₁
      | .error _ => []
    (if h ∈ o.handles then [{ handle := h, call := .startAt name, answer := start }] else []) ++
      inside ++ (next answer).made o'
  | look h next, o => (next (o.branch h).isComplete (o.transitionsFrom h)).made o

theorem outlineFrom_call (h : Handle) (k : BranchCall σ ε)
    (next : Except BranchError Handle → Draft σ ε) (o : Outline σ ε) :
    (call h k next).outlineFrom o =
      (next (Id.run ((k.on h).runOn o)).1).outlineFrom (Id.run ((k.on h).runOn o)).2 := by
  rw [outlineFrom, build, BuildT.run_bind, BuildT.run_observing]
  rfl

theorem outlineFrom_within (h : Handle) (name : String) (body : Handle → Draft σ ε)
    (next : Except BranchError Handle → Draft σ ε) (o : Outline σ ε) :
    let block := Id.run ((h.startAtWith name fun child => (body child).build).runOn o)
    (within h name body next).outlineFrom o = (next block.1).outlineFrom block.2 := by
  intro block
  rw [outlineFrom, build, BuildT.run_bind, BuildT.run_observing]
  rfl

/-- What a block leaves is what its body makes of the outline with the new branch. -/
theorem snd_run_startAtWith (h : Handle) (name : String) (body : Handle → Draft σ ε)
    (o : Outline σ ε) :
    (Id.run ((h.startAtWith name fun child => (body child).build).runOn o)).2 =
      match Id.run ((h.startAt name : Build σ ε Handle).runOn o) with
      | (.ok child, o₁) => (body child).outlineFrom o₁
      | (.error _, o₁) => o₁ := by
  rw [Handle.startAtWith, BuildT.run_bind]
  rcases Id.run ((h.startAt name : Build σ ε Handle).runOn o) with ⟨_ | child, o₁⟩
  · rfl
  · show (Id.run (((body child).build >>= fun _ => pure h).runOn o₁)).2 =
      (Id.run ((body child).build.runOn o₁)).2
    rw [BuildT.run_bind]
    rcases Id.run ((body child).build.runOn o₁) with ⟨_ | _, o'⟩ <;> rfl

end Draft

theorem BranchCall.becomes {o o' : Outline σ ε} (ho : o.Planted) {h : Handle}
    {k : BranchCall σ ε} {answer : Except BranchError Handle}
    (hcall : Id.run ((k.on h).runOn o) = (answer, o')) :
    o.Becomes (if h ∈ o.handles then [{ handle := h, call := k, answer }] else []) o' := by
  by_cases hh : h ∈ o.handles
  · rw [if_pos hh]
    exact .cons hh hcall (.nil o')
  · rw [if_neg hh]
    have hsame : o' = o := by
      rw [on_eq_call, BuildT.run_call] at hcall
      cases hk : k.apply o h with
      | error e =>
        rw [hk] at hcall
        exact (Prod.mk.inj hcall).2.symm
      | ok made =>
        rw [hk] at hcall
        obtain ⟨-, rfl⟩ := Prod.mk.inj hcall
        rcases eq_spawn_or_eq_revise hk with ⟨b, -, rfl⟩ | ⟨f, -, rfl⟩
        · exact ho.spawn_eq_of_notMem hh b
        · exact ho.revise_eq_of_notMem hh f
    rw [hsame]
    exact .nil o

theorem BranchCall.planted_run {o o' : Outline σ ε} (ho : o.Planted) {h : Handle}
    {k : BranchCall σ ε} {answer : Except BranchError Handle}
    (hcall : Id.run ((k.on h).runOn o) = (answer, o')) : o'.Planted := by
  have hkept := k.keeps (P := Outline.Planted) (fun _ _ _ _ hk => BranchCall.planted hk) h o ho
  rw [hcall] at hkept
  exact hkept

/-- The calls of a draft lead to the outline that it leaves. -/
theorem Draft.becomes (d : Draft σ ε) {o : Outline σ ε} (ho : o.Planted) :
    o.Becomes (d.made o) (d.outlineFrom o) := by
  induction d generalizing o with
  | done | refuse e => exact .nil o
  | look h next ih => exact ih _ _ ho
  | call h k next ih =>
    rw [outlineFrom_call, made]
    rcases hcall : Id.run ((k.on h).runOn o) with ⟨answer, o'⟩
    exact (BranchCall.becomes ho hcall).append (ih answer (BranchCall.planted_run ho hcall))
  | within h name body next ihbody ih =>
    have hblock := snd_run_startAtWith h name body o
    rw [outlineFrom_within, made]
    rcases hstart : Id.run ((h.startAt name : Build σ ε Handle).runOn o) with ⟨start, o₁⟩
    have hfirst := BranchCall.becomes (k := .startAt name) ho hstart
    have hplanted := BranchCall.planted_run (k := .startAt name) ho hstart
    rcases hrun : Id.run ((h.startAtWith name fun child => (body child).build).runOn o) with
      ⟨answer, o'⟩
    rw [hstart, hrun] at hblock
    cases start with
    | error e =>
      obtain rfl : o' = o₁ := hblock
      exact (hfirst.append (.nil _)).append (ih answer hplanted)
    | ok child =>
      obtain rfl : o' = (body child).outlineFrom o₁ := hblock
      have hrest := ih answer ((body child).planted_outlineFrom hplanted)
      exact (hfirst.append (ihbody child hplanted)).append hrest

/-! ## Main statement -/

/-- The calls of a draft lead to the outline that it leaves, and the branches at which they
named a source govern all that is below them.  Such a branch and every branch below it have
that source, so all that is built from the branch starts there, and no other source can be set
anywhere below.  The root has no source and no transition of its own, and on the way down to
the branch of each transition that is built there is exactly one branch at which a source was
named, by a single call, and the transition starts there. -/
theorem Draft.source_governs (d : Draft σ ε) :
    let o := d.outline
    let starts := (d.made Outline.root).filterMap MadeCall.start?
    Outline.root.Becomes (d.made Outline.root) o ∧
    (∀ h a, (h, a) ∈ starts →
      (∀ i, o.Below h i →
        (o.branch i).source = some a ∧
        (∀ name, Id.run ((i.startAt name : Build σ ε Handle).runOn o) =
          (.error (.sourceAlreadySet a), o)) ∧
        ∀ name (body : Handle → Build σ ε Unit),
          Id.run ((i.startAtWith name body).runOn o) = (.error (.sourceAlreadySet a), o)) ∧
      ∀ t ∈ o.transitionsFrom h, t.source = a) ∧
    (o.branch Handle.root).source = none ∧ (o.branch Handle.root).transition? = none ∧
    (starts.map Prod.fst).Nodup ∧
    ∀ t ∈ o.transitionsFrom Handle.root, ∃ i, o.Below Handle.root i ∧
      (o.branch i).transition? = some t ∧
      ∃ c, o.Below Handle.root c ∧ o.Below c i ∧ (c, t.source) ∈ starts ∧
        ∀ e ∈ starts, o.Below e.1 i → e = (c, t.source) := by
  intro o starts
  have hbecomes : Outline.root.Becomes (d.made Outline.root) o := d.becomes .root
  have hs : o.Sourced starts := hbecomes.sourced .start
  refine ⟨hbecomes, ?_, hs.root, ?_, hs.distinct, ?_⟩
  · intro h a hstart
    refine ⟨?_, fun t => hs.source_of_mem hstart⟩
    intro i hi
    have hsource := hs.source_of_below hi (hs.named _ hstart)
    refine ⟨hsource, ?_, ?_⟩
    · intro name
      exact (BranchCall.run_on_eq_error_iff (k := .startAt name)).mpr ⟨rfl, .startAt hsource⟩
    · exact fun name body => Handle.run_startAtWith_of_source hsource name body
  · rw [Branch.transition?, hs.root]
  · intro t ht
    obtain ⟨i, hi, hti⟩ := hs.planted.exists_below_of_mem ht
    obtain ⟨c, hc, hroot, hdown⟩ := hs.exists_start hi (Branch.source_of_transition? hti)
    refine ⟨i, hi, hti, c, hroot, hdown, hc, ?_⟩
    intro e he hbelow
    exact hs.start_unique he hc hbelow hdown

/-- The source of the hall is named in a block, below a branch that has a condition and no
source. -/
theorem Draft.source_governs_hall :
    let guarded : Handle := { number := 1 }
    let hall : Handle := { number := 2 }
    let lit : Handle := { number := 3 }
    let d : Draft Unit Unit :=
      .call Handle.root (.onlyIf (.named "open")) fun _ =>
        .within guarded "hall" (fun hall =>
          .call hall (.onlyIf (.named "lit")) fun _ => .call lit (.goTo "room") fun _ => .done)
          fun _ => .done
    let t : Transition Unit Unit :=
      { source := "hall", target := "room", condition := some (.named "lit") }
    d.outline.Below hall lit ∧ (d.outline.branch lit).source = some "hall" ∧
    Id.run (((BranchCall.startAt "yard").on lit).runOn d.outline) =
      (.error (.sourceAlreadySet "hall"), d.outline) ∧
    d.outline.transitionsFrom Handle.root = [t] ∧
    ∃ i c, d.outline.Below c i ∧ (d.outline.branch i).transition? = some t ∧
      (c, "hall") ∈ (d.made Outline.root).filterMap MadeCall.start? := by
  intro guarded hall lit d t
  obtain ⟨-, hstarts, -, -, -, hbuilt⟩ := Draft.source_governs d
  have hstart : (hall, "hall") ∈ (d.made Outline.root).filterMap MadeCall.start? :=
    List.mem_singleton_self (hall, "hall")
  have hlit : d.outline.Below hall lit := .single (List.mem_singleton_self lit)
  have htransition : t ∈ d.outline.transitionsFrom Handle.root := List.mem_singleton_self t
  obtain ⟨hsource, hrefused, -⟩ := (hstarts hall "hall" hstart).1 lit hlit
  obtain ⟨i, -, hi, c, -, hc, hnamed, -⟩ := hbuilt t htransition
  exact ⟨hlit, hsource, hrefused "yard", rfl, i, c, hc, hi, hnamed⟩

end Turnstile
