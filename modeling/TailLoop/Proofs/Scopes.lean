import TailLoop.Proofs.Positions

/-!
# Scopes of binders

Which binders are in scope at which part of a term. A condition on a node and the binders around it
can be required everywhere in a term; that no binder is bound again in its own scope is such a
condition.

* `Term.everywhere`: a condition holds at every node, given the binders around it.
* `Term.bindsOnce`: no binder is bound twice on a way from the root to a leaf.
-/

namespace TailLoop

variable {α : Type}

namespace Term

/-- The members of the recursive group `bindings` as binders. -/
def groupBinders {β : Type} (level : UInt32) (bindings : List (String × β)) : List Binder :=
  bindings.map fun b => ⟨some b.1, level⟩

/-- The binder `b` of an effect's result, if it has a name. -/
def resultBinders (b : Binder) : List Binder := if b.name.isSome then [b] else []

/-- The binders that the root of a term introduces. -/
def binders : Term α → List Binder
  | abs _ _ params _ => params
  | letIn _ b _ _ => [b]
  | letRec _ level bindings _ => groupBinders level bindings
  | bindEffect _ b _ _ => resultBinders b
  | _ => []

/-- The `children` of a term, each with those of its `binders` that are in scope there. -/
def scopedChildren : Term α → List (List Binder × Term α)
  | abs _ _ params body => [(params, body)]
  | letIn _ b value body => [([], value), ([b], body)]
  | letRec _ level bindings body =>
    (bindings.map fun f => (groupBinders level bindings, f.2)) ++
      [(groupBinders level bindings, body)]
  | bindEffect _ b effect body => [([], effect), (resultBinders b, body)]
  | t => t.children.map fun s => ([], s)

/-- `scopedChildren` without binders are the `children`. -/
theorem map_snd_scopedChildren (t : Term α) : t.scopedChildren.map Prod.snd = t.children := by
  cases t <;> simp [scopedChildren, children, Function.comp_def]

mutual

/-- Whether `f` holds at every node of a term, given the binders around the node. -/
def everywhere (f : List Binder → Term α → Bool) (scope : List Binder) : Term α → Bool
  | t@(global ..) | t@(bound ..) | t@(lit ..) | t@(constructor ..) | t@(undefined ..)
  | t@(fail ..) => f scope t
  | t@(array _ items) => f scope t && everywhereList f scope items
  | t@(record _ fields) | t@(construct _ _ _ fields) => f scope t && everywhereFields f scope fields
  | t@(app _ _ head args) =>
    f scope t && (everywhere f scope head && everywhereList f scope args)
  | t@(abs _ _ params body) => f scope t && everywhere f (params ++ scope) body
  | t@(access _ subject _) | t@(test _ subject _) => f scope t && everywhere f scope subject
  | t@(update _ subject fields) =>
    f scope t && (everywhere f scope subject && everywhereFields f scope fields)
  | t@(letIn _ b value body) =>
    f scope t && (everywhere f scope value && everywhere f ([b] ++ scope) body)
  | t@(letRec _ level bindings body) =>
    let scope' := groupBinders level bindings ++ scope
    f scope t && (everywhereFields f scope' bindings && everywhere f scope' body)
  | t@(bindEffect _ b effect body) =>
    f scope t && (everywhere f scope effect && everywhere f (resultBinders b ++ scope) body)
  | t@(pureEffect _ value) => f scope t && everywhere f scope value
  | t@(deferEffect _ effect) => f scope t && everywhere f scope effect
  | t@(branch _ arms default) =>
    f scope t && (everywhereArms f scope arms && everywhere f scope default)
  | t@(unary _ _ operand) => f scope t && everywhere f scope operand
  | t@(binary _ _ left right) =>
    f scope t && (everywhere f scope left && everywhere f scope right)

/-- `everywhere` for all terms of a list. -/
def everywhereList (f : List Binder → Term α → Bool) (scope : List Binder) :
    List (Term α) → Bool
  | [] => true
  | t :: rest => everywhere f scope t && everywhereList f scope rest

/-- `everywhere` for all named terms. -/
def everywhereFields (f : List Binder → Term α → Bool) (scope : List Binder) :
    List (String × Term α) → Bool
  | [] => true
  | (_, t) :: rest => everywhere f scope t && everywhereFields f scope rest

/-- `everywhere` for all conditions and bodies of arms. -/
def everywhereArms (f : List Binder → Term α → Bool) (scope : List Binder) :
    List (Term α × Term α) → Bool
  | [] => true
  | (cond, body) :: rest =>
    everywhere f scope cond && (everywhere f scope body && everywhereArms f scope rest)

end

variable {f : List Binder → Term α → Bool} {scope : List Binder}

/-- `everywhereList` holds if `everywhere` holds for each of `ts`. -/
theorem everywhereList_iff {ts : List (Term α)} :
    everywhereList f scope ts = true ↔ ∀ t ∈ ts, t.everywhere f scope = true := by
  induction ts with
  | nil => simp [everywhereList]
  | cons t rest ih => simp [everywhereList, ih]

/-- `everywhereFields` holds if `everywhere` holds for each term of `fields`. -/
theorem everywhereFields_iff {fields : List (String × Term α)} :
    everywhereFields f scope fields = true ↔
      ∀ s ∈ fields.map Prod.snd, s.everywhere f scope = true := by
  induction fields with
  | nil => simp [everywhereFields]
  | cons x rest ih =>
    rw [everywhereFields, Bool.and_eq_true, ih, List.map_cons, List.forall_mem_cons]

/-- `everywhereArms` holds if `everywhere` holds for conditions and bodies of `arms`. -/
theorem everywhereArms_iff {arms : List (Term α × Term α)} :
    everywhereArms f scope arms = true ↔
      ∀ s ∈ arms.flatMap fun arm => [arm.1, arm.2], s.everywhere f scope = true := by
  induction arms with
  | nil => simp [everywhereArms]
  | cons arm rest ih =>
    rw [everywhereArms, Bool.and_eq_true, Bool.and_eq_true, ih, List.flatMap_cons,
      List.cons_append, List.cons_append, List.nil_append, List.forall_mem_cons,
      List.forall_mem_cons]

/-- `f` holds everywhere in `t` if it holds at the root and everywhere in the `scopedChildren`. -/
theorem everywhere_iff {t : Term α} :
    t.everywhere f scope = true ↔
      f scope t = true ∧ ∀ x ∈ t.scopedChildren, x.2.everywhere f (x.1 ++ scope) = true := by
  cases t <;>
    simp only [everywhere, scopedChildren, children, everywhereList_iff, everywhereFields_iff,
      everywhereArms_iff, Bool.and_eq_true, List.forall_mem_map, List.forall_mem_cons,
      List.forall_mem_append, List.not_mem_nil, false_imp_iff, implies_true, List.nil_append,
      List.map_cons, List.map_append, List.map_nil, and_true]

/-- Whether the binders `bs` are distinct and none of them is in `scope`. -/
def freshIn (scope bs : List Binder) : Bool := decide bs.Nodup && bs.all fun b => decide (b ∉ scope)

/-- Whether no binder is bound twice on a way from the root of `t` to a leaf, nor one of `scope`
again. -/
def bindsOnce (scope : List Binder) (t : Term α) : Bool :=
  t.everywhere (fun scope s => freshIn scope s.binders) scope

/-- `freshIn` as a proposition. -/
theorem freshIn_iff {scope bs : List Binder} :
    freshIn scope bs = true ↔ bs.Nodup ∧ ∀ b ∈ bs, b ∉ scope := by
  simp [freshIn]

/-- `t` binds once if its `binders` are fresh and its `scopedChildren` bind once. -/
theorem bindsOnce_iff {scope : List Binder} {t : Term α} :
    t.bindsOnce scope = true ↔ (t.binders.Nodup ∧ ∀ b ∈ t.binders, b ∉ scope) ∧
      ∀ x ∈ t.scopedChildren, x.2.bindsOnce (x.1 ++ scope) = true := by
  rw [bindsOnce, everywhere_iff, freshIn_iff]
  rfl

/-- The bound references among `letRefs` are `binders`. -/
theorem mem_binders_of_mem_letRefs {b : Binder} {t : Term α} (h : .bound b ∈ t.letRefs) :
    b ∈ t.binders := by
  cases t with
  | letIn _ b' _ _ =>
    obtain rfl : b = b' := by simpa [letRefs] using h
    exact List.mem_singleton.2 rfl
  | letRec _ level bindings _ =>
    obtain ⟨x, hx, hb⟩ := List.mem_map.1 h
    cases hb
    exact List.mem_map.2 ⟨x, hx, rfl⟩
  | _ => simp [letRefs] at h

/-- If `t` binds once, it does not bind again what is in `scope`. -/
theorem not_rebinds_of_bindsOnce {b : Binder} {scope : List Binder} {t : Term α}
    (h : t.bindsOnce scope = true) (hb : b ∈ scope) : ¬t.Rebinds (.bound b) := by
  induction t using children_induction generalizing scope with
  | step t ih =>
  rintro ⟨s, hs, hr⟩
  obtain ⟨⟨-, hfresh⟩, hchildren⟩ := bindsOnce_iff.1 h
  rcases mem_subterms_iff.1 hs with rfl | ⟨u, hu, hs⟩
  · exact hfresh b (mem_binders_of_mem_letRefs hr) hb
  · rw [← map_snd_scopedChildren] at hu
    obtain ⟨⟨bs, u'⟩, hx, rfl⟩ := List.mem_map.1 hu
    refine ih u' (map_snd_scopedChildren t ▸ hu) (hchildren _ hx) ?_ ⟨s, hs, hr⟩
    exact List.mem_append_right _ hb

end Term

end TailLoop
