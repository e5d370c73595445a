import TailLoop.Proofs.ModuleNames
import TailLoop.Proofs.NameTables
import TailLoop.Proofs.VariableLowering

/-!
# Functions that groups share

Every group of two or more mutually recursive bindings has a name for the function that its members
share as a loop. The names are made from those of the members, so two groups can ask for the same
one; each gets the first that is free, and it stays reserved while bindings are lowered.

* `Context.Labels`: the names of the shared functions, group by group.
* `Env.Reached`: environments of a context.
* `SharedLoop`: the declarations of a shared loop.
* `shared_functions_protected`: the names are distinct, differ from all others, and are those that
  the loops of a unit use.
-/

namespace TailLoop

namespace BindingGroup

/-- The names of the bindings of `g`. -/
def names (g : BindingGroup) : List String := g.bindings.map Prod.fst

/-- `g` consists of two or more mutually recursive bindings. -/
def isMutual (g : BindingGroup) : Bool := g.recursive && decide (2 ≤ g.bindings.length)

/-- What the name of the function is made from that the members of `g` share. -/
def sharedBase (g : BindingGroup) : String := "$" ++ "_".intercalate g.names

end BindingGroup

namespace Lower

open Script Lowering Term

/-! ## Names of shared functions -/

namespace Context

/-- The name of the function that the members of `g` share, if there is one. -/
def groupLabel? (c : Context) (g : BindingGroup) : Option String :=
  g.bindings.head?.bind fun b => c.dispatcher? b.1

/-- Without mutual recursion, `g` needs no shared function. -/
theorem mutualMembers_of_not_isMutual {g : BindingGroup} (h : g.isMutual = false) :
    mutualMembers g = none := by
  obtain ⟨recursive, bindings⟩ := g
  match bindings with
  | [] | [_] => rfl
  | _ :: _ :: _ =>
    cases recursive with
    | false => rfl
    | true => simp [BindingGroup.isMutual] at h

/-- With mutual recursion, `g` needs one, known by its first member. -/
theorem mutualMembers_of_isMutual {g : BindingGroup} (h : g.isMutual = true) :
    ∃ b rest, g.bindings = b :: rest ∧ mutualMembers g = some (b.1, g.names) := by
  obtain ⟨recursive, bindings⟩ := g
  obtain ⟨rfl, hlen⟩ : recursive = true ∧ 2 ≤ bindings.length := by
    simpa [BindingGroup.isMutual] using h
  match bindings with
  | b :: b' :: rest => exact ⟨b, b' :: rest, rfl, rfl⟩

/-- What is a prefix of `ys ++ [y]` is the whole list, or a prefix of `ys`. -/
theorem concat_prefix_cases {α : Type} {xs ys : List α} {x y : α} (h : xs ++ [x] <+: ys ++ [y]) :
    xs = ys ∧ x = y ∨ xs ++ [x] <+: ys := by
  apply (List.prefix_concat_iff.1 h).imp_left
  intro heq
  obtain ⟨hinit, hlast⟩ := List.append_inj' heq rfl
  exact ⟨hinit, List.singleton_inj.1 hlast⟩

/-- The groups `gs` that need a shared function have a name for it, the first that was free when the
groups before it had theirs; there are no other such names. -/
structure Labels (names : List String) (gs : List BindingGroup) (c : Context) : Prop where
  /-- The names of the shared functions are reserved behind the others. -/
  reserved : c.reserved = names ++ gs.filterMap c.groupLabel?
  /-- A group gets the first name that is free. -/
  firstFree : ∀ before g, before ++ [g] <+: gs → g.isMutual = true →
    ∃ label, c.groupLabel? g = some label ∧
      IsFirstFree (names ++ before.filterMap c.groupLabel?) g.sharedBase label
  /-- Other groups have none. -/
  unnamed : ∀ g ∈ gs, g.isMutual = false → c.groupLabel? g = none
  /-- Names are known by the first members of groups that need them. -/
  only : ∀ x label, c.dispatcher? x = some label →
    ∃ g ∈ gs, g.isMutual = true ∧ g.names.head? = some x

variable {c : Context} {names : List String} {gs : List BindingGroup}

/-- Where the bindings of `g` have other names than those of `gs`, it has no shared function yet. -/
theorem Labels.groupLabel?_eq_none (h : c.Labels names gs) {g : BindingGroup}
    (hapart : ∀ g' ∈ gs, g'.names.Disjoint g.names) : c.groupLabel? g = none := by
  cases hlabel : c.groupLabel? g with
  | none => rfl
  | some label =>
    obtain ⟨b, hb, hdispatcher⟩ := Option.bind_eq_some_iff.1 hlabel
    obtain ⟨g', hg', -, hhead⟩ := h.only b.1 label hdispatcher
    have hmem : b.1 ∈ g.names := List.mem_map_of_mem (List.mem_of_head? hb)
    exact absurd hmem (hapart g' hg' (List.mem_of_head? hhead))

/-- A group `g` without mutual recursion changes nothing. -/
theorem Labels.skip (h : c.Labels names gs) {g : BindingGroup} (hg : g.isMutual = false)
    (hapart : ∀ g' ∈ gs, g'.names.Disjoint g.names) : c.Labels names (gs ++ [g]) where
  reserved := by
    rw [h.reserved, List.filterMap_append, List.filterMap_cons_none (h.groupLabel?_eq_none hapart),
      List.filterMap_nil, List.append_nil]
  firstFree before g' hbefore hg' := by
    obtain ⟨-, rfl⟩ | hbefore := concat_prefix_cases hbefore
    · rw [hg] at hg'
      cases hg'
    · exact h.firstFree before g' hbefore hg'
  unnamed g' hg' hsingle := by
    rcases List.mem_append.1 hg' with hg' | hg'
    · exact h.unnamed g' hg' hsingle
    · exact List.mem_singleton.1 hg' ▸ h.groupLabel?_eq_none hapart
  only x label hx := by
    obtain ⟨g', hg', hfound⟩ := h.only x label hx
    exact ⟨g', List.mem_append_left _ hg', hfound⟩

/-- The context after the group with first member `first` got a name for its shared function. -/
def named (c : Context) (first label : String) : Context :=
  { c with reserved := c.reserved ++ [label], dispatchers := c.dispatchers.insert first label }

/-- A group that has been `named` has that name. -/
theorem groupLabel?_named_self (c : Context) {g : BindingGroup} {b : String × Expr}
    {rest : List (String × Expr)} (hbindings : g.bindings = b :: rest) (label : String) :
    (c.named b.1 label).groupLabel? g = some label := by
  rw [groupLabel?, hbindings, List.head?_cons, Option.bind_some]
  exact (dispatcher?_insert ..).trans (if_pos rfl)

/-- Groups with other first members keep their names. -/
theorem groupLabel?_named_of_not_mem (c : Context) {g : BindingGroup} {first : String}
    (hfirst : first ∉ g.names) (label : String) :
    (c.named first label).groupLabel? g = c.groupLabel? g := by
  rw [groupLabel?, groupLabel?]
  apply Option.bind_congr
  intro b hb
  have hne : b.1 ≠ first := by
    rintro rfl
    exact hfirst (List.mem_map_of_mem (List.mem_of_head? hb))
  exact (dispatcher?_insert ..).trans (if_neg hne)

/-- A group `g` with mutual recursion gets the first name that is free, and no other group loses its
name. -/
theorem Labels.enter (h : c.Labels names gs) {g : BindingGroup} {b : String × Expr}
    {rest : List (String × Expr)} (hbindings : g.bindings = b :: rest) (hg : g.isMutual = true)
    {label : String} (hlabel : IsFirstFree c.reserved g.sharedBase label)
    (hapart : ∀ g' ∈ gs, g'.names.Disjoint g.names) :
    (c.named b.1 label).Labels names (gs ++ [g]) := by
  have hmem : b.1 ∈ g.names := by simp [BindingGroup.names, hbindings]
  have hnew : (c.named b.1 label).groupLabel? g = some label :=
    c.groupLabel?_named_self hbindings label
  have hold (g' : BindingGroup) (hg' : g' ∈ gs) :
      (c.named b.1 label).groupLabel? g' = c.groupLabel? g' :=
    c.groupLabel?_named_of_not_mem (fun hfirst => hapart g' hg' hfirst hmem) label
  have hlabels {before : List BindingGroup} (hbefore : before <+: gs) :
      before.filterMap (c.named b.1 label).groupLabel? = before.filterMap c.groupLabel? :=
    List.filterMap_congr fun g' hg' => hold g' (hbefore.subset hg')
  refine ⟨?_, fun before g' hbefore hg' => ?_, fun g' hg' hsingle => ?_, fun x label' hx => ?_⟩
  · show c.reserved ++ [label] = names ++ (gs ++ [g]).filterMap (c.named b.1 label).groupLabel?
    rw [List.filterMap_append, List.filterMap_cons_some hnew, List.filterMap_nil,
      hlabels (List.prefix_refl gs), h.reserved, List.append_assoc]
  · obtain ⟨rfl, rfl⟩ | hbefore := concat_prefix_cases hbefore
    -- either it is the group itself
    · refine ⟨label, hnew, ?_⟩
      rw [hlabels (List.prefix_refl before), ← h.reserved]
      exact hlabel
    -- or one before
    · obtain ⟨label', hlabel', hfree⟩ := h.firstFree before g' hbefore hg'
      refine ⟨label', ?_, ?_⟩
      · rw [hold g' (hbefore.subset (by simp)), hlabel']
      · rw [hlabels ((List.prefix_append before [g']).trans hbefore)]
        exact hfree
  · rcases List.mem_append.1 hg' with hg' | hg'
    · exact (hold g' hg').trans (h.unnamed g' hg' hsingle)
    · rw [List.mem_singleton.1 hg', hg] at hsingle
      cases hsingle
  · have hget : (c.named b.1 label).dispatcher? x =
        if x = b.1 then some label else c.dispatcher? x := dispatcher?_insert ..
    rw [hget] at hx
    by_cases heq : x = b.1
    · exact ⟨g, by simp, hg, by simp [BindingGroup.names, hbindings, heq]⟩
    · rw [if_neg heq] at hx
      obtain ⟨g', hg', hfound⟩ := h.only x label' hx
      exact ⟨g', List.mem_append_left _ hg', hfound⟩

/-- If `g` has a shared function, it has several members. -/
theorem Labels.isMutual (h : c.Labels names gs) {g : BindingGroup} (hg : g ∈ gs) {label : String}
    (hlabel : c.groupLabel? g = some label) : g.isMutual = true := by
  by_contra hsingle
  rw [h.unnamed g hg (Bool.eq_false_iff.2 hsingle)] at hlabel
  cases hlabel

/-- The name of the shared function of `g` differs from all that were taken before. -/
theorem Labels.not_mem (h : c.Labels names gs) {before : List BindingGroup} {g : BindingGroup}
    (hbefore : before ++ [g] <+: gs) {label : String} (hlabel : c.groupLabel? g = some label) :
    label ∉ names ++ before.filterMap c.groupLabel? := by
  have hg := h.isMutual (hbefore.subset (by simp)) hlabel
  obtain ⟨label', hlabel', hfirst⟩ := h.firstFree before g hbefore hg
  obtain rfl := Option.some.inj (hlabel.symm.trans hlabel')
  exact hfirst.not_mem

/-- Different groups of `gs` have different shared functions. -/
theorem Labels.nodup (h : c.Labels names gs) : (gs.filterMap c.groupLabel?).Nodup := by
  -- from group to group, since a name differs from those of the groups before
  have hinitial (before : List BindingGroup) (hbefore : before <+: gs) :
      (before.filterMap c.groupLabel?).Nodup := by
    induction before using List.reverseRecOn with
    | nil => exact List.nodup_nil
    | append_singleton before g ih =>
      have hnodup := ih ((List.prefix_append before [g]).trans hbefore)
      rw [List.filterMap_append]
      cases hlabel : c.groupLabel? g with
      | none => rwa [List.filterMap_cons_none hlabel, List.filterMap_nil, List.append_nil]
      | some label =>
        have hnew := h.not_mem hbefore hlabel
        rw [List.filterMap_cons_some hlabel, List.filterMap_nil]
        refine List.nodup_append'.2 ⟨hnodup, List.nodup_singleton label, ?_⟩
        exact List.disjoint_singleton.2 fun hmem => hnew (List.mem_append_right _ hmem)
  exact hinitial gs (List.prefix_refl gs)

/-- `addGroup` keeps the labels, and gives `g` one if it needs it. -/
theorem Labels.addGroup (h : c.Labels names gs) {g : BindingGroup}
    (hapart : ∀ g' ∈ gs, g'.names.Disjoint g.names) :
    (c.addGroup g).Labels names (gs ++ [g]) := by
  cases hg : g.isMutual with
  | false =>
    have hsame : c.addGroup g = c := by rw [Context.addGroup, mutualMembers_of_not_isMutual hg]
    rw [hsame]
    exact h.skip hg hapart
  | true =>
    obtain ⟨b, rest, hbindings, hmembers⟩ := mutualMembers_of_isMutual hg
    obtain ⟨hnone, -⟩ | ⟨first, members, label, hsome, hlabel, heq⟩ := c.addGroup_cases g
    · rw [hmembers] at hnone
      cases hnone
    · rw [hmembers] at hsome
      obtain ⟨rfl, rfl⟩ := Prod.mk.inj (Option.some.inj hsome)
      rw [heq]
      exact h.enter hbindings hg hlabel hapart

/-- `ofUnit` has the names of all shared functions of `u`. -/
theorem labels_ofUnit {u : CompilationUnit} (loops : Bool)
    (hnames : (u.bindings.map Prod.fst).Nodup) :
    (ofUnit u loops).Labels (scopeNames u) u.groups := by
  have hapart : u.groups.Pairwise fun g g' => g.names.Disjoint g'.names := by
    rw [CompilationUnit.bindings, List.map_flatMap] at hnames
    exact (List.nodup_flatMap.1 hnames).2
  -- groups pass from the list that is left to the one that is done
  have hfold (gs done : List BindingGroup) (c : Context) (h : c.Labels (scopeNames u) done)
      (hpairs : (done ++ gs).Pairwise fun g g' => g.names.Disjoint g'.names) :
      (gs.foldl Context.addGroup c).Labels (scopeNames u) (done ++ gs) := by
    induction gs generalizing done c with
    | nil => rwa [List.append_nil]
    | cons g rest ih =>
      have hdone : ∀ g' ∈ done, g'.names.Disjoint g.names := fun g' hg' =>
        (List.pairwise_append.1 hpairs).2.2 g' hg' g (List.mem_cons_self ..)
      rw [List.append_cons] at hpairs ⊢
      exact ih (done ++ [g]) _ (h.addGroup hdone) hpairs
  refine hfold u.groups [] _ ⟨?_, ?_, ?_, ?_⟩ hapart
  · exact (List.append_nil _).symm
  · intro before g hbefore
    exact absurd (List.prefix_nil.1 hbefore) (by simp)
  · intro g hg
    exact absurd hg List.not_mem_nil
  · intro x label hlabel
    cases hlabel

end Context

/-! ## Environments of a context -/

/-- Environments that come from that of `c` by taking names, naming binders, and entering and
leaving loops. -/
inductive Env.Reached (c : Context) : Env → Prop
  | start : Reached c (.ofContext c)
  | fresh {e : Env} (base : String) : Reached c e → Reached c (e.fresh base).2
  | bind {e : Env} (b : Binder) : Reached c e → Reached c (e.bind b).2
  | push {e : Env} (s : LoopScope) : Reached c e → Reached c (e.push s)
  | truncate {e : Env} (depth : Nat) : Reached c e → Reached c (e.truncate depth)

/-- The tables of `e` go on those of the context. -/
theorem Env.Reached.extends {c : Context} {e : Env} (h : Reached c e) :
    (ofContext c).Extends e := by
  induction h with
  | start => exact .of_eq rfl rfl
  | fresh base _ ih => exact ih.trans (extends_fresh _ base)
  | bind b _ ih => exact ih.trans (extends_bind _ b)
  | push s _ ih => exact ih.trans (.of_eq rfl rfl)
  | truncate depth _ ih => exact ih.trans (.of_eq rfl rfl)

/-- No fresh name is reserved. -/
theorem Env.Reached.fresh_not_mem {c : Context} {e : Env} (h : Reached c e) (base : String) :
    (e.fresh base).1 ∉ c.reserved := by
  intro hmem
  -- a reserved name is taken from the start
  have htaken := h.extends.isTaken (isTaken_ofContext.2 hmem)
  rw [isTaken_fresh_fst] at htaken
  cases htaken

/-! ## Declarations of shared loops -/

/-- The declarations of a loop that several members share: the function with the loop, declared as
`label`, and for each member a function that calls `label` and has no parameter of that name. -/
def SharedLoop (label : String) (members : List String) (decls : List Stmt) : Prop :=
  ∃ selector slots body, ∃ copies : List (List String),
    copies.length = members.length ∧ (∀ params ∈ copies, label ∉ params) ∧
    decls = .const label (.arrow (selector :: slots) [.loop body]) ::
      (members.zip copies).zipIdx.map fun w => .const w.1.1 (entryFunction label w.2 w.1.2)

/-- `entries` call the shared function `label`, under which no parameter of theirs is known. -/
theorem entries_eq {label : String} (i : Nat) (members : List Member) {p : Progress}
    (hlabel : p.env.isTaken label = true) :
    ∃ copies : List (List String), copies.length = members.length ∧
      (∀ params ∈ copies, label ∉ params) ∧
      (entries label i members p).1 = (((members.map Member.ident).zip copies).zipIdx i).map
        fun w => .const w.1.1 (entryFunction label w.2 w.1.2) := by
  induction members generalizing i p with
  | nil => exact ⟨[], rfl, nofun, rfl⟩
  | cons m rest ih =>
    obtain ⟨-, hkept, -, hfresh⟩ := freshNames_spec [] p (paramBases "$copy_" m.params)
    obtain ⟨copies, hlen, hfree, heq⟩ := ih (i + 1) (hkept.taken label hlabel)
    refine ⟨(copyNames m.params p).1 :: copies, congrArg (· + 1) hlen,
      List.forall_mem_cons.2 ⟨fun hmem => ?_, hfree⟩, ?_⟩
    -- the parameters are fresh names, and the label is taken
    · have hnew := (hfresh label hmem).1
      rw [hlabel] at hnew
      cases hnew
    · rw [List.map_cons, List.zip_cons_cons, List.zipIdx_cons, List.map_cons, ← heq]
      rfl

/-- Several members share a loop: `groupLoop`. -/
theorem loopDeclarations_of_two_le {members : List Member} (h : 2 ≤ members.length)
    (dispatcher : Option String) :
    loopDeclarations members dispatcher = groupLoop members dispatcher := by
  match members with
  | _ :: _ :: _ => rfl

/-- What `sharedLoop` declares: the shared function, and the functions that enter it. -/
theorem sharedLoop_spec {label : String} {members : List Member} (h : ∀ m ∈ members, Built m.body)
    {p : Progress} (hlabel : p.env.isTaken label = true) :
    SharedLoop label (members.map Member.ident) (sharedLoop members label p).1 := by
  -- the function with the loop is written before the functions that enter it
  let names := (loopNames members label p).1
  let body : Lowering (List Stmt) := loopNames members label >>= fun q =>
    inLoop ⟨label, members.map fun m => (m.ref, m.params.length), some q.1, q.2⟩
      (dispatchBody q.1 q.2 0 members)
  have hnames : Built (loopNames members label) :=
    (Built.freshName _).bind fun _ => (Built.freshNames _).map
  have hbody : Built body := hnames.bind fun _ => (built_dispatchBody h).inLoop
  obtain ⟨copies, hlen, hfree, heq⟩ := entries_eq 0 members ((hbody.extends p).isTaken hlabel)
  refine ⟨names.1, names.2, (body p).1, copies, hlen.trans (List.length_map ..).symm, hfree, ?_⟩
  rw [sharedLoop_eq, ← heq]
  rfl

variable {c : Context}

/-- If `g` is a loop and has several members, it becomes a shared loop with the name `label` that is
reserved for it. -/
theorem sharedLoop_group {m : String} {g : BindingGroup} {label : String} (hc : c.loops = true)
    (hloop : (g.analyze m).isLoop = true) (hg : g.isMutual = true)
    (hlabel : c.groupLabel? g = some label) (hreserved : label ∈ c.reserved) :
    SharedLoop label g.names (group c (g.analyze m)).result := by
  let bindings := (g.analyze m).bindings
  let members := (((bindings.map Prod.fst).zip (topRefs c.name bindings)).zip
    (bindings.map Prod.snd)).map (memberOf c)
  have hnames : bindings.map Prod.fst = g.names := g.map_fst_analyze m
  have hidents : members.map Member.ident = g.names := by
    rw [List.map_map, ← hnames]
    exact (map_zip_zip (by simp) (by simp [topRefs])).1
  have hmany : 2 ≤ members.length := by
    rw [← List.length_map (f := Member.ident), hidents, BindingGroup.names, List.length_map]
    simp only [BindingGroup.isMutual, Bool.and_eq_true, decide_eq_true_eq] at hg
    exact hg.2
  have hdispatcher : groupDispatcher? c bindings = some label := by
    rw [groupDispatcher?_eq, hnames, ← hlabel, BindingGroup.names, List.head?_map, Option.bind_map]
    rfl
  rw [group_eq_loop hc hloop (functionGroup_group hloop).functions, hdispatcher]
  show SharedLoop label g.names ((loopDeclarations members (some label)).runIn _).result
  rw [loopDeclarations_of_two_le hmany, groupLoop_eq, ← hidents]
  -- before the loop is written there is a report only
  refine sharedLoop_spec (List.forall_mem_map.2 fun q _ => ?_) (Env.isTaken_ofContext.2 hreserved)
  exact (built_code c _).block .looping

/-- If `g` is no such loop, its bindings are all that is declared. -/
theorem declared_ownGroup {m : String} {g : BindingGroup}
    (h : ¬(c.loops = true ∧ (g.analyze m).isLoop = true ∧ g.isMutual = true)) :
    declared (group c (g.analyze m)).result = g.names := by
  have hnames : (g.analyze m).bindings.map Prod.fst = g.names := g.map_fst_analyze m
  by_cases hloops : c.loops = true
  · obtain ⟨label?, hdeclared, hlabel⟩ := declared_group c (g.analyze m)
    cases label? with
    | none => exact hdeclared.trans hnames
    | some label =>
      obtain ⟨hloop, hlen, -⟩ := hlabel label rfl
      obtain ⟨b, rest, members, -, hmembers⟩ := exists_mutualMembers hloop
        (by simpa [BindingGroup.analyze] using hlen)
      -- a loop that declares one more name is one that several members share
      refine absurd ⟨hloops, hloop, ?_⟩ h
      by_contra hsingle
      rw [Context.mutualMembers_of_not_isMutual (Bool.eq_false_iff.2 hsingle)] at hmembers
      cases hmembers
  · have hgroup : group c (g.analyze m) =
        .concat ((g.analyze m).bindings.map fun b => binding c b.1 b.2) := by
      rw [group, Bool.eq_false_iff.2 hloops, Bool.and_false]
    rw [hgroup, declared_bindings, hnames]

/-! ## Units -/

/-- The functions that groups of `u` share have names of their own, and the loops use them. -/
structure SharesWell (u : CompilationUnit) (loops : Bool) : Prop where
  /-- A group of two or more mutually recursive bindings has a name for its shared function: the
  search for one ends, at the first that is taken neither at module scope nor by a group before. -/
  named : ∀ before g after, u.groups = before ++ g :: after → g.isMutual = true →
    ∃ label, (Context.ofUnit u loops).groupLabel? g = some label ∧
      IsFirstFree (scopeNames u ++ before.filterMap (Context.ofUnit u loops).groupLabel?)
        g.sharedBase label
  /-- Other groups have none. -/
  unnamed : ∀ g ∈ u.groups, g.isMutual = false → (Context.ofUnit u loops).groupLabel? g = none
  /-- There are no other such names. -/
  only : ∀ x label, (Context.ofUnit u loops).dispatcher? x = some label →
    ∃ g ∈ u.groups, g.isMutual = true ∧ g.names.head? = some x
  /-- Different groups have different names. -/
  distinct : (u.groups.filterMap (Context.ofUnit u loops).groupLabel?).Nodup
  /-- No name is that of an import, of a binding or of something from outside, and none is given out
  while bindings are lowered. -/
  apart : ∀ label ∈ u.groups.filterMap (Context.ofUnit u loops).groupLabel?,
    label ∉ scopeNames u ∧
      ∀ e, Env.Reached (.ofUnit u loops) e → ∀ base, (e.fresh base).1 ≠ label
  /-- The script consists of the declarations of the groups. -/
  declarations : (Lower.module u loops).result.declarations =
    u.groups.flatMap fun g => (group (.ofUnit u loops) (g.analyze u.name)).result
  /-- A loop that several bindings share declares the name of its own group and enters the loop by
  that name. -/
  shared : ∀ g ∈ u.groups, loops = true → (g.analyze u.name).isLoop = true → g.isMutual = true →
    ∃ label, (Context.ofUnit u loops).groupLabel? g = some label ∧
      SharedLoop label g.names (group (.ofUnit u loops) (g.analyze u.name)).result
  /-- Other groups declare their bindings only. -/
  own : ∀ g ∈ u.groups,
    ¬(loops = true ∧ (g.analyze u.name).isLoop = true ∧ g.isMutual = true) →
    declared (group (.ofUnit u loops) (g.analyze u.name)).result = g.names

/-- In a unit without two bindings of one name, the functions that groups share have names of their
own, which differ from all other names, and the loops use them. -/
theorem shared_functions_protected (u : CompilationUnit) (loops : Bool)
    (hnames : (u.bindings.map Prod.fst).Nodup) : SharesWell u loops := by
  have hlabels := Context.labels_ofUnit loops hnames
  have hloops : (Context.ofUnit u loops).loops = loops := (Context.ofUnit_fields u loops).2.1
  have hreserved {label : String}
      (h : label ∈ u.groups.filterMap (Context.ofUnit u loops).groupLabel?) :
      label ∈ (Context.ofUnit u loops).reserved :=
    hlabels.reserved ▸ List.mem_append_right _ h
  have hinitial {before after : List BindingGroup} {g : BindingGroup}
      (h : u.groups = before ++ g :: after) : before ++ [g] <+: u.groups :=
    ⟨after, by rw [h, List.append_assoc, List.singleton_append]⟩
  refine ⟨fun before g after hgroups hg => ?_, hlabels.unnamed, hlabels.only, hlabels.nodup,
    fun label hlabel => ⟨?_, fun e he base heq => ?_⟩, ?_, fun g hg hon hloop hmutual => ?_,
    fun g hg hother => ?_⟩
  · exact hlabels.firstFree before g (hinitial hgroups) hg
  · obtain ⟨g, hg, hlabel⟩ := List.mem_filterMap.1 hlabel
    obtain ⟨before, after, hgroups⟩ := List.append_of_mem hg
    exact fun hmem => hlabels.not_mem (hinitial hgroups) hlabel (List.mem_append_left _ hmem)
  · exact he.fresh_not_mem base (heq ▸ hreserved hlabel)
  · rw [declarations_module, CompilationUnit.analyze, List.flatMap_map]
  · obtain ⟨before, after, hgroups⟩ := List.append_of_mem hg
    obtain ⟨label, hlabel, -⟩ := hlabels.firstFree before g (hinitial hgroups) hmutual
    refine ⟨label, hlabel, sharedLoop_group (hloops.trans hon) hloop hmutual hlabel ?_⟩
    exact hreserved (List.mem_filterMap.2 ⟨g, hg, hlabel⟩)
  · rw [← hloops] at hother
    exact declared_ownGroup hother

/-- A unit with two loops whose members have the same names when these are put together. -/
def twinLoopsUnit : CompilationUnit :=
  let callTo (name : String) : Expr :=
    .abs () .curried [⟨some "x", 0⟩]
      (.app () .curried (.global () ⟨none, name⟩) [.bound () ⟨some "x", 0⟩])
  { CompilationUnit.empty "Main" with
    groups := [⟨true, [("a_b", callTo "c"), ("c", callTo "a_b")]⟩,
      ⟨true, [("a", callTo "b_c"), ("b_c", callTo "a")]⟩] }

/-- The second loop gets another name. -/
theorem shared_functions_protected_twinLoops :
    (twinLoopsUnit.bindings.map Prod.fst).Nodup ∧
      twinLoopsUnit.groups.map (Context.ofUnit twinLoopsUnit true).groupLabel? =
        [some "$a_b_c", some "$a_b_c$1"] ∧
      SharesWell twinLoopsUnit true := by
  have hnames : (twinLoopsUnit.bindings.map Prod.fst).Nodup := by decide
  exact ⟨hnames, by decide, shared_functions_protected twinLoopsUnit true hnames⟩

end Lower

end TailLoop
