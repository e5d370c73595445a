import TailLoop.Proofs.LoopDecision
import TailLoop.Proofs.Scopes

/-!
# Calls of loop members

What the analysis guarantees about a group that it takes for a loop, in the form in which the
lowering of terms needs it: along the way from the body of a member to a reference to a member,
nothing leaves tail position, and the reference is applied to all its arguments.

* `Term.mentions`: the number of references to the members of a group.
* `Term.CallsFully`: every call of a member is a tail call with all its arguments.
* `Term.Flagged`: all recursive groups that are flagged as loops are called in this way only.
* `Term.loopSizes`: for every flagged group, the number of references to its members.
-/

namespace TailLoop

variable {α : Type}

namespace Term

/-! ## References to a group -/

/-- The number of references in a term to one of `refs`. -/
def mentions (m : Option String) (refs : List Ref) (t : Term α) : Nat :=
  t.subterms.countP fun s => decide (∃ r ∈ refs, s.refIn? m = some r)

variable {m : Option String} {refs : List Ref} {members : List (Ref × Nat)}

/-- The references to `refs` in `t` are the root, if it is one, and those in the children. -/
theorem mentions_eq (m : Option String) (refs : List Ref) (t : Term α) :
    t.mentions m refs = (if ∃ r ∈ refs, t.refIn? m = some r then 1 else 0) +
      (t.children.map (mentions m refs)).sum := by
  rw [mentions, subterms_eq, List.countP_cons, List.countP_flatMap, Nat.add_comm]
  simp only [decide_eq_true_eq]
  rfl

/-- `t` does not mention the group if none of its members occurs in `t`. -/
theorem mentions_eq_zero_iff {t : Term α} :
    t.mentions m refs = 0 ↔ ∀ r ∈ refs, t.occurrences m r = 0 := by
  simp only [mentions, occurrences, List.countP_eq_zero, decide_eq_true_eq, not_exists, not_and]
  exact ⟨fun h r hr s hs => h s hs r hr, fun h s hs r hr => h r hr s hs⟩

/-- What `t` does not mention, its child `s` does not. -/
theorem mentions_child {s t : Term α} (h : t.mentions m refs = 0) (hs : s ∈ t.children) :
    s.mentions m refs = 0 := by
  simp only [mentions, List.countP_eq_zero] at h ⊢
  exact fun u hu => h u (mem_subterms_iff.2 (.inr ⟨s, hs, hu⟩))

/-- What `t` does not mention is not what `t` refers to. -/
theorem refIn?_ne_of_mentions {t : Term α} {r : Ref} (h : t.mentions m refs = 0) (hr : r ∈ refs) :
    t.refIn? m ≠ some r := by
  simp only [mentions, List.countP_eq_zero, decide_eq_true_eq, not_exists, not_and] at h
  exact h t (mem_subterms_iff.2 (.inl rfl)) r hr

/-- If the root of `t` is not a reference to the group and no child mentions it, `t` does not. -/
theorem mentions_eq_zero {t : Term α} (hroot : ∀ r ∈ refs, t.refIn? m ≠ some r)
    (hchildren : ∀ s ∈ t.children, s.mentions m refs = 0) : t.mentions m refs = 0 := by
  have hsum : (t.children.map (mentions m refs)).sum = 0 := by
    rw [List.map_congr_left hchildren, List.map_const', List.sum_replicate_nat, Nat.mul_zero]
  rw [mentions_eq, hsum, if_neg]
  rintro ⟨r, hr, h⟩
  exact hroot r hr h

/-! ## Full tail calls -/

/-- Every call of a member in `t` is a tail call with as many arguments as the member has
parameters. -/
def CallsFully (m : Option String) (members : List (Ref × Nat)) (t : Analyzed) : Prop :=
  ∀ x ∈ members, ∀ y ∈ t.callSites m x.1, y.args = x.2 ∧ y.tail = true

/-- In a child `s` that keeps tail position, calls stay full tail calls. -/
theorem CallsFully.child {s t : Analyzed} {i : Nat} (h : t.CallsFully m members)
    (hs : (s, i) ∈ t.searched) (hk : t.keepsTail i = true) : s.CallsFully m members := by
  intro x hx y hy
  have hbelow := h x hx (y.below i (t.keepsTail i)) (mem_callSites.2 (.inr ⟨s, i, y, hs, hy, rfl⟩))
  simpa [CallSite.below, hk] using hbelow

/-- A child `s` that loses tail position mentions no member. -/
theorem CallsFully.mentions_child {s t : Analyzed} {i : Nat} (h : t.CallsFully m members)
    (hs : (s, i) ∈ t.searched) (hk : t.keepsTail i = false) :
    s.mentions m (members.map Prod.fst) = 0 := by
  rw [mentions_eq_zero_iff]
  intro r hr
  obtain ⟨x, hx, rfl⟩ := List.mem_map.1 hr
  rw [← length_callSites, List.length_eq_zero_iff, List.eq_nil_iff_forall_not_mem]
  intro y hy
  have hbelow := h x hx (y.below i (t.keepsTail i)) (mem_callSites.2 (.inr ⟨s, i, y, hs, hy, rfl⟩))
  simp [CallSite.below, hk] at hbelow

/-- If `t` is no call and loses tail position everywhere, it mentions no member. -/
theorem CallsFully.mentions_eq_zero {t : Analyzed} (h : t.CallsFully m members)
    (hpos : ∀ x ∈ members, 0 < x.2) (happ : t.appliesRef = false)
    (hroot : ∀ r, t.rootCalls m r = if t.refIn? m = some r then [⟨[], 0, true⟩] else [])
    (hk : ∀ i, t.keepsTail i = false) : t.mentions m (members.map Prod.fst) = 0 := by
  refine Term.mentions_eq_zero ?_ ?_
  · intro r hr hself
    obtain ⟨x, hx, rfl⟩ := List.mem_map.1 hr
    have hsite := (h x hx ⟨[], 0, true⟩ (mem_callSites.2 (.inl ?_))).1
    · have := hpos x hx
      simp only at hsite
      omega
    · rw [hroot, if_pos hself]
      exact List.mem_singleton.2 rfl
  · intro s hs
    obtain ⟨i, hi⟩ := List.mem_iff_getElem?.1 hs
    refine h.mentions_child (i := i) (mem_searched_iff.2 ⟨hi, ?_⟩) (hk i)
    simp [happ]

/-! ### Calls in nodes -/

/-- Where `t` applies no reference, calls are looked for in each child. -/
theorem mem_searched {t u : Term α} {i : Nat} (happ : t.appliesRef = false)
    (h : t.children[i]? = some u) : (u, i) ∈ t.searched := mem_searched_iff.2 ⟨h, by simp [happ]⟩

/-- Conditions have the even numbers among the children of a branch, bodies the odd ones. -/
theorem mem_searched_branch {a : α} {arms : List (Term α × Term α)} {d : Term α}
    {arm : Term α × Term α} (h : arm ∈ arms) :
    ∃ i < arms.length, (arm.1, 2 * i) ∈ (branch a arms d).searched ∧
      (arm.2, 2 * i + 1) ∈ (branch a arms d).searched := by
  obtain ⟨i, hi⟩ := List.mem_iff_getElem?.1 h
  have hlt : i < arms.length := (List.getElem?_eq_some_iff.1 hi).1
  refine ⟨i, hlt, mem_searched rfl ?_, mem_searched rfl ?_⟩
  · rw [children, List.getElem?_append_left (by rw [length_flatMap_arms]; omega),
      getElem?_flatMap_arms, show 2 * i / 2 = i by omega, hi]
    simp
  · rw [children, List.getElem?_append_left (by rw [length_flatMap_arms]; omega),
      getElem?_flatMap_arms, show (2 * i + 1) / 2 = i by omega, hi]
    simp [show (2 * i + 1) % 2 = 1 by omega]

section Nodes

variable {a : Analysis}

/-- The arguments of a call mention no member. -/
theorem CallsFully.mentions_args {head : Analyzed} {args : List Analyzed}
    (h : (app a .curried head args).CallsFully m members) :
    ∀ u ∈ args, u.mentions m (members.map Prod.fst) = 0 := by
  intro u hu
  obtain ⟨i, hi⟩ := List.mem_iff_getElem?.1 hu
  refine h.mentions_child (i := i + 1) ?_ rfl
  rw [mem_searched_iff]
  exact ⟨by simpa [children] using hi, by simp⟩

/-- A call of the member `x` has as many arguments as it has parameters. -/
theorem CallsFully.length_args {head : Analyzed} {args : List Analyzed} {x : Ref × Nat}
    (h : (app a .curried head args).CallsFully m members) (hx : x ∈ members)
    (hhead : head.refIn? m = some x.1) : args.length = x.2 := by
  have hroot : (⟨[0], args.length, true⟩ : CallSite) ∈
      (app a .curried head args).callSites m x.1 := by
    refine mem_callSites.2 (.inl ?_)
    rw [rootCalls, if_pos hhead]
    exact List.mem_singleton.2 rfl
  exact (h x hx _ hroot).1

/-- A call of something else mentions no member. -/
theorem CallsFully.mentions_app {head : Analyzed} {args : List Analyzed}
    (h : (app a .curried head args).CallsFully m members)
    (hhead : ∀ r ∈ members.map Prod.fst, head.refIn? m ≠ some r) :
    (app a .curried head args).mentions m (members.map Prod.fst) = 0 := by
  refine Term.mentions_eq_zero (by simp [refIn?, Candidates.ref?, ref?]) ?_
  intro u hu
  obtain ⟨i, hi⟩ := List.mem_iff_getElem?.1 hu
  by_cases happ : (app a .curried head args).appliesRef = true ∧ i = 0
  · obtain ⟨happ, rfl⟩ := happ
    obtain rfl : head = u := by simpa [children] using hi
    refine Term.mentions_eq_zero hhead ?_
    rw [children_of_isSome_ref? happ]
    exact List.forall_mem_nil _
  · exact h.mentions_child (mem_searched_iff.2 ⟨hi, happ⟩) rfl

/-- `letIn` keeps tail position in its `body` only. -/
theorem CallsFully.letIn {b : Binder} {value body : Analyzed}
    (h : (letIn a b value body).CallsFully m members) :
    value.mentions m (members.map Prod.fst) = 0 ∧ body.CallsFully m members :=
  ⟨h.mentions_child (i := 0) (mem_searched rfl rfl) rfl,
    h.child (i := 1) (mem_searched rfl rfl) rfl⟩

/-- `letRec` keeps tail position in its `body`, if it is a loop. -/
theorem CallsFully.letRec {level : UInt32} {bindings : List (String × Analyzed)} {body : Analyzed}
    (h : (letRec a level bindings body).CallsFully m members) :
    (∀ t ∈ bindings.map Prod.snd, t.mentions m (members.map Prod.fst) = 0) ∧
      (a.isLoop = true → body.CallsFully m members) ∧
        (a.isLoop = false → body.mentions m (members.map Prod.fst) = 0) := by
  have hbody : (body, bindings.length) ∈ (Term.letRec a level bindings body).searched :=
    mem_searched rfl (by simp [children])
  refine ⟨?_, ?_, ?_⟩
  · intro t ht
    obtain ⟨i, hi⟩ := List.mem_iff_getElem?.1 ht
    have hlt : i < bindings.length := by simpa using (List.getElem?_eq_some_iff.1 hi).1
    refine h.mentions_child (i := i) (mem_searched rfl ?_) ?_
    · rw [children, List.getElem?_append_left (by simpa using hlt), hi]
    · simp [keepsTail, Nat.ne_of_lt hlt]
  · exact fun hloop => h.child hbody (by simp [keepsTail, hloop])
  · exact fun hloop => h.mentions_child hbody (by simp [keepsTail, hloop])

/-- `branch` keeps tail position in the bodies of its arms and in its default. -/
theorem CallsFully.branch {arms : List (Analyzed × Analyzed)} {default : Analyzed}
    (h : (branch a arms default).CallsFully m members) :
    (∀ arm ∈ arms, arm.1.mentions m (members.map Prod.fst) = 0) ∧
      (∀ arm ∈ arms, arm.2.CallsFully m members) ∧ default.CallsFully m members := by
  refine ⟨?_, ?_, ?_⟩
  · intro arm harm
    obtain ⟨i, hi, hcond, -⟩ := mem_searched_branch (a := a) (d := default) harm
    refine h.mentions_child hcond ?_
    simp [keepsTail]
    omega
  · intro arm harm
    obtain ⟨i, hi, -, hbody⟩ := mem_searched_branch (a := a) (d := default) harm
    exact h.child hbody (by simp [keepsTail])
  · refine h.child (i := 2 * arms.length) (mem_searched rfl ?_) (by simp [keepsTail])
    simp [children, ← length_flatMap_arms]

end Nodes

/-! ## Flagged groups -/

/-- The parameters of a curried function, none of other terms. -/
def params : Term α → List Binder
  | abs _ .curried params _ => params
  | _ => []

/-- The body of a curried function; every other term is taken as it is. -/
def inner : Term α → Term α
  | abs _ .curried _ body => body
  | t => t

/-- `arity` is the number of `params`. -/
theorem length_params (t : Term α) : t.params.length = t.arity := by
  cases t with
  | abs _ calling => cases calling <;> rfl
  | _ => rfl

/-- If all `ts` are curried functions, `bodies` are their `inner` terms. -/
theorem bodies_eq_map {ts : List Analyzed}
    (h : ∀ t ∈ ts, ∃ a params body, t = .abs a .curried params body) :
    bodies ts = ts.map inner := by
  induction ts with
  | nil => rfl
  | cons t rest ih =>
    obtain ⟨a, params, body, rfl⟩ := h t (List.mem_cons_self ..)
    have hrest := ih fun u hu => h u (List.mem_cons_of_mem _ hu)
    rw [bodies] at hrest ⊢
    rw [List.map_cons, ← hrest]
    rfl

/-- A group called in the way of a loop: all `bindings` are curried functions with parameters, and
all calls of members in their bodies are full tail calls. -/
structure LoopsFully (m : Option String) (refs : List Ref) (bindings : List Analyzed) : Prop where
  /-- All bindings are curried functions. -/
  functions : ∀ t ∈ bindings, ∃ a params body, t = .abs a .curried params body
  /-- All functions have parameters. -/
  pos : ∀ x ∈ refs.zip (bindings.map arity), 0 < x.2
  /-- All calls of members are full tail calls. -/
  calls : ∀ body ∈ bodies bindings, body.CallsFully m (refs.zip (bindings.map arity))

/-- If the summaries count all call sites, what `verdict` takes for a loop is called in the way of a
loop. -/
theorem loopsFully_of_isLoop {bindings : List Analyzed} (hlen : refs.length = bindings.length)
    (hcounts : ∀ r ∈ refs, ∀ body ∈ bodies bindings, CountsSites m r body)
    (h : (verdict refs bindings).isLoop = true) : LoopsFully m refs bindings := by
  have hgroup := (verdict_isLoop_iff hlen hcounts).1 h
  have hpair (x : Ref × Nat) (hx : x ∈ refs.zip (bindings.map arity)) :
      ∃ t, (x.1, t) ∈ refs.zip bindings ∧ t.arity = x.2 := by
    rw [List.zip_map_right] at hx
    obtain ⟨p, hp, rfl⟩ := List.mem_map.1 hx
    exact ⟨p.2, hp, rfl⟩
  refine ⟨hgroup.functions, ?_, ?_⟩
  · intro x hx
    obtain ⟨t, ht, harity⟩ := hpair x hx
    exact harity ▸ (hgroup.uniform _ ht).1
  · intro body hbody x hx
    obtain ⟨t, ht, harity⟩ := hpair x hx
    obtain ⟨hpos, huniform⟩ := hgroup.uniform _ ht
    rw [← harity]
    exact (forall_callSites_iff hpos).2 (huniform body hbody)

/-- All recursive groups in `t` that are flagged as loops are called in the way of a loop. -/
def Flagged (m : Option String) (t : Analyzed) : Prop :=
  ∀ a level bindings body, .letRec a level bindings body ∈ t.subterms → a.isLoop = true →
    LoopsFully m (groupRefs level bindings) (bindings.map Prod.snd)

/-- What holds of all groups in `t` holds of those in its child `s`. -/
theorem Flagged.child {s t : Analyzed} (h : t.Flagged m) (hs : s ∈ t.children) : s.Flagged m :=
  fun a level bindings body hmem =>
    h a level bindings body (mem_subterms_iff.2 (.inr ⟨s, hs, hmem⟩))

/-- The children of a node that binds nothing are analysed with the same candidates. -/
theorem children_analyze {c : Candidates} {t : Expr} (h : t.letRefs = []) :
    (analyze c t).children = t.children.map (analyze c) := by
  cases t with
  | letIn => simp [letRefs] at h
  | letRec _ level bindings body =>
    obtain rfl : bindings = [] := by simpa [letRefs, groupRefs] using h
    rfl
  | branch _ arms default =>
    simp [analyze, children, List.flatMap_map, List.map_flatMap]
  | _ => simp [analyze, children]

/-- The children of an analysed term are the analysed children of `t`, perhaps with more
candidates. -/
theorem mem_children_analyze {c : Candidates} {t : Expr} {s : Analyzed}
    (h : s ∈ (analyze c t).children) :
    ∃ x ∈ t.scopedChildren, ∃ c' : Candidates, c'.module = c.module ∧ s = analyze c' x.2 := by
  by_cases hlet : t.letRefs = []
  · rw [children_analyze hlet, ← map_snd_scopedChildren, List.map_map] at h
    obtain ⟨x, hx, rfl⟩ := List.mem_map.1 h
    exact ⟨x, hx, c, rfl, rfl⟩
  · cases t with
    | letIn _ b value body =>
      simp only [analyze, children, List.mem_cons, List.not_mem_nil, or_false] at h
      rcases h with rfl | rfl
      · exact ⟨([], value), by simp [scopedChildren], c, rfl, rfl⟩
      · exact ⟨([b], body), by simp [scopedChildren], c.extend [.bound b], rfl, rfl⟩
    | letRec _ level bindings body =>
      simp only [analyze, children, analyzeFields_eq_map, List.map_map, List.mem_append,
        List.mem_map, List.mem_singleton] at h
      rcases h with ⟨f, hf, rfl⟩ | rfl
      · exact ⟨(groupBinders level bindings, f.2),
          List.mem_append_left _ (List.mem_map.2 ⟨f, hf, rfl⟩),
          c.extend (groupRefs level bindings), rfl, rfl⟩
      · exact ⟨(groupBinders level bindings, body),
          List.mem_append_right _ (List.mem_singleton.2 rfl),
          c.extend (groupRefs level bindings), rfl, rfl⟩
    | _ => exact absurd rfl hlet

/-- If `t` binds every binder once, its analysis with `c` is `Flagged`. -/
theorem flagged_analyze {scope : List Binder} (c : Candidates) (t : Expr)
    (h : t.bindsOnce scope = true) : (analyze c t).Flagged c.module := by
  induction t using children_induction generalizing c scope with
  | step t ih =>
  intro a level bindings body hmem hloop
  obtain ⟨-, hchildren⟩ := bindsOnce_iff.1 h
  -- the flagged group is the root itself or lies in a child, whose scope has more binders
  rcases mem_subterms_iff.1 hmem with heq | ⟨s, hs, hmem⟩
  · cases t with
    | letRec _ level' bindings' body' =>
      rw [analyze] at heq
      injection heq with ha hlevel hbindings hbody
      subst ha hlevel hbindings
      have hrefs :
          groupRefs level (analyzeFields (c.extend (groupRefs level bindings')) bindings') =
          groupRefs level bindings' := by
        simp [groupRefs, analyzeFields_eq_map]
      rw [hrefs]
      refine loopsFully_of_isLoop (by simp [groupRefs]) ?_ hloop
      intro r hr
      -- a member is in the scope of the bindings, so they do not bind it again
      refine countsSites_bodies (List.mem_append_left _ hr) ?_
      intro f hf
      obtain ⟨x, hx, rfl⟩ := List.mem_map.1 hr
      refine not_rebinds_of_bindsOnce
        (hchildren (groupBinders level bindings', f.2) ?_) ?_
      · exact List.mem_append_left _ (List.mem_map.2 ⟨f, hf, rfl⟩)
      · exact List.mem_append_left _ (List.mem_map.2 ⟨x, hx, rfl⟩)
    | app _ calling => cases calling <;> simp [analyze] at heq
    | _ => simp [analyze] at heq
  · obtain ⟨x, hx, c', hmodule, rfl⟩ := mem_children_analyze hs
    rw [← hmodule]
    refine ih x.2 ?_ c' (hchildren x hx) a level bindings body hmem hloop
    rw [← map_snd_scopedChildren]
    exact List.mem_map.2 ⟨x, hx, rfl⟩

/-! ## Flagged groups of any term -/

/-- A group of curried functions, at least one. -/
structure FunctionGroup (bindings : List Analyzed) : Prop where
  /-- There is a binding. -/
  nonempty : bindings ≠ []
  /-- All bindings are curried functions. -/
  functions : ∀ t ∈ bindings, ∃ a params body, t = .abs a .curried params body

/-- What `verdict` takes for a loop consists of functions, whatever is counted. -/
theorem functionGroup_of_isLoop {bindings : List Analyzed} (hlen : refs.length = bindings.length)
    (h : (verdict refs bindings).isLoop = true) : FunctionGroup bindings := by
  obtain ⟨hne, hfun, -⟩ := (verdict_isLoop_eq refs bindings hlen).1 h
  refine ⟨?_, hfun⟩
  rintro rfl
  exact hne (List.length_eq_zero_iff.1 hlen)

/-- All recursive groups in `t` that are flagged as loops consist of functions. -/
def FlagsFunctions (t : Analyzed) : Prop :=
  ∀ a level bindings body, .letRec a level bindings body ∈ t.subterms → a.isLoop = true →
    FunctionGroup (bindings.map Prod.snd)

/-- What holds of all groups in `t` holds of those in its child `s`. -/
theorem FlagsFunctions.child {s t : Analyzed} (h : t.FlagsFunctions) (hs : s ∈ t.children) :
    s.FlagsFunctions :=
  fun a level bindings body hmem =>
    h a level bindings body (mem_subterms_iff.2 (.inr ⟨s, hs, hmem⟩))

/-- Whatever `t` binds, its analysis flags groups of functions only. -/
theorem flagsFunctions_analyze (c : Candidates) (t : Expr) : (analyze c t).FlagsFunctions := by
  induction t using children_induction generalizing c with
  | step t ih =>
  intro a level bindings body hmem hloop
  rcases mem_subterms_iff.1 hmem with heq | ⟨s, hs, hmem⟩
  · cases t with
    | letRec _ level' bindings' body' =>
      rw [analyze] at heq
      injection heq with ha hlevel hbindings hbody
      subst ha hlevel hbindings
      exact functionGroup_of_isLoop (by simp [groupRefs]) hloop
    | app _ calling => cases calling <;> simp [analyze] at heq
    | _ => simp [analyze] at heq
  · obtain ⟨x, hx, c', -, rfl⟩ := mem_children_analyze hs
    refine ih x.2 ?_ c' a level bindings body hmem hloop
    rw [← map_snd_scopedChildren]
    exact List.mem_map.2 ⟨x, hx, rfl⟩

/-- A top-level group `g` that is flagged as a loop consists of functions. -/
theorem functionGroup_group {m : String} {g : BindingGroup} (h : (g.analyze m).isLoop = true) :
    FunctionGroup ((g.analyze m).bindings.map Prod.snd) := by
  simp only [BindingGroup.analyze, AnalyzedGroup.isLoop] at h ⊢
  by_cases hrec : g.recursive = true
  · rw [if_pos hrec] at h
    exact functionGroup_of_isLoop (by simp [topRefs]) h
  · rw [if_neg hrec] at h
    cases h

/-! ## Sizes of loops -/

/-- The number of references to `refs` in the bodies of `bindings`. -/
def groupMentions (m : Option String) (refs : List Ref) (bindings : List Analyzed) : Nat :=
  ((bodies bindings).map (mentions m refs)).sum

/-- The `groupMentions` of the node, if it is a recursive group that is flagged as a loop. -/
def loopSize? (m : Option String) : Analyzed → Option Nat
  | letRec a level bindings _ =>
    if a.isLoop then some (groupMentions m (groupRefs level bindings) (bindings.map Prod.snd))
    else none
  | _ => none

/-- The sizes of all flagged groups in `t`, outer ones first. -/
def loopSizes (m : Option String) (t : Analyzed) : List Nat := t.subterms.filterMap (loopSize? m)

/-- The sizes in `t` are that of the root, if it is a flagged group, and those in the children. -/
theorem loopSizes_eq (m : Option String) (t : Analyzed) :
    t.loopSizes m = (t.loopSize? m).toList ++ t.children.flatMap (loopSizes m) := by
  rw [loopSizes, subterms_eq, List.filterMap_cons, List.filterMap_flatMap]
  cases t.loopSize? m <;> rfl

end Term

end TailLoop
