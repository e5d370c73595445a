import Mathlib
import TailLoop.Calls.Analyze

/-!
# Positions in terms

A position is a path of child numbers. Positions say what it means that a reference occurs somewhere
in a term and that a place is in tail position.

* `Term.OccursAt`: a reference occurs at a position.
* `TailPosition`: a position of an analysed term is in tail position.
* `Term.callSites`: all calls of a reference, and `mem_callSites_iff` that they are its occurrences.
-/

namespace TailLoop

variable {α : Type}

namespace Term

/-! ## Induction over children -/

/-- The child `s` is smaller than `t`. -/
theorem sizeOf_lt_of_mem_children [SizeOf α] {s t : Term α} (h : s ∈ t.children) :
    sizeOf s < sizeOf t := by
  have field {f : String × Term α} {fs : List (String × Term α)} (hf : f ∈ fs) :
      sizeOf f.2 < sizeOf fs := by
    have := List.sizeOf_lt_of_mem hf
    obtain ⟨name, s⟩ := f
    simp only [Prod.mk.sizeOf_spec] at this ⊢
    omega
  cases t with
  | global | bound | lit | constructor | undefined | fail => simp [children] at h
  | array _ items =>
    have := List.sizeOf_lt_of_mem (show s ∈ items from h)
    simp only [array.sizeOf_spec]
    omega
  | record _ fields | construct _ _ _ fields =>
    obtain ⟨f, hf, rfl⟩ := List.mem_map.1 h
    have := field hf
    simp only [record.sizeOf_spec, construct.sizeOf_spec]
    omega
  | app _ _ head args =>
    simp only [app.sizeOf_spec]
    rcases List.mem_cons.1 h with rfl | h
    · omega
    · have := List.sizeOf_lt_of_mem h
      omega
  | update _ subject fields =>
    simp only [update.sizeOf_spec]
    rcases List.mem_cons.1 h with rfl | h
    · omega
    · obtain ⟨f, hf, rfl⟩ := List.mem_map.1 h
      have := field hf
      omega
  | abs | access | pureEffect | deferEffect | test | unary =>
    obtain rfl := List.mem_singleton.1 h
    simp only [abs.sizeOf_spec, access.sizeOf_spec, pureEffect.sizeOf_spec,
      deferEffect.sizeOf_spec, test.sizeOf_spec, unary.sizeOf_spec]
    omega
  | letIn | bindEffect | binary =>
    simp only [letIn.sizeOf_spec, bindEffect.sizeOf_spec, binary.sizeOf_spec]
    rcases List.mem_cons.1 h with rfl | h
    · omega
    · obtain rfl := List.mem_singleton.1 h
      omega
  | letRec _ _ bindings body =>
    simp only [letRec.sizeOf_spec]
    rcases List.mem_append.1 h with h | h
    · obtain ⟨f, hf, rfl⟩ := List.mem_map.1 h
      have := field hf
      omega
    · obtain rfl := List.mem_singleton.1 h
      omega
  | branch _ arms default =>
    simp only [branch.sizeOf_spec]
    rcases List.mem_append.1 h with h | h
    · obtain ⟨⟨cond, body⟩, harm, hs⟩ := List.mem_flatMap.1 h
      have := List.sizeOf_lt_of_mem harm
      simp only [Prod.mk.sizeOf_spec] at this
      rcases List.mem_cons.1 hs with rfl | hs
      · omega
      · obtain rfl := List.mem_singleton.1 hs
        omega
    · obtain rfl := List.mem_singleton.1 h
      omega

/-- What holds of a term whenever it holds of its children holds of every term. -/
@[elab_as_elim]
theorem children_induction {P : Term α → Prop} (step : ∀ t, (∀ s ∈ t.children, P s) → P t)
    (t : Term α) : P t :=
  step t fun s _ => children_induction step s
termination_by sizeOf t
decreasing_by exact sizeOf_lt_of_mem_children ‹_›

/-! ## Subterms and occurrences -/

/-- The subterm at a position, which lists the numbers of children on the way. -/
def at? (t : Term α) : List Nat → Option (Term α)
  | [] => some t
  | i :: p => t.children[i]?.bind fun s => s.at? p

/-- The root is at `[]`. -/
@[simp] theorem at?_nil (t : Term α) : t.at? [] = some t := rfl

/-- What is at `i :: p` is at `p` in the child `i`. -/
theorem at?_cons (t : Term α) (i : Nat) (p : List Nat) :
    t.at? (i :: p) = t.children[i]?.bind fun s => s.at? p := rfl

mutual

/-- A term and all its parts, the term first. -/
def subterms : Term α → List (Term α)
  | t@(global ..) | t@(bound ..) | t@(lit ..) | t@(constructor ..) | t@(undefined ..)
  | t@(fail ..) => [t]
  | t@(array _ items) => t :: subtermsList items
  | t@(record _ fields) | t@(construct _ _ _ fields) => t :: subtermsFields fields
  | t@(app _ _ head args) => t :: (head.subterms ++ subtermsList args)
  | t@(abs _ _ _ body) => t :: body.subterms
  | t@(access _ subject _) | t@(test _ subject _) => t :: subject.subterms
  | t@(update _ subject fields) => t :: (subject.subterms ++ subtermsFields fields)
  | t@(letIn _ _ value body) => t :: (value.subterms ++ body.subterms)
  | t@(letRec _ _ bindings body) => t :: (subtermsFields bindings ++ body.subterms)
  | t@(bindEffect _ _ effect body) => t :: (effect.subterms ++ body.subterms)
  | t@(pureEffect _ value) => t :: value.subterms
  | t@(deferEffect _ effect) => t :: effect.subterms
  | t@(branch _ arms default) => t :: (subtermsArms arms ++ default.subterms)
  | t@(unary _ _ operand) => t :: operand.subterms
  | t@(binary _ _ left right) => t :: (left.subterms ++ right.subterms)

/-- The `subterms` of every term of a list. -/
def subtermsList : List (Term α) → List (Term α)
  | [] => []
  | t :: rest => t.subterms ++ subtermsList rest

/-- The `subterms` of every named term. -/
def subtermsFields : List (String × Term α) → List (Term α)
  | [] => []
  | (_, t) :: rest => t.subterms ++ subtermsFields rest

/-- The `subterms` of conditions and bodies. -/
def subtermsArms : List (Term α × Term α) → List (Term α)
  | [] => []
  | (cond, body) :: rest => cond.subterms ++ (body.subterms ++ subtermsArms rest)

end

/-- `subtermsList` goes through `ts` one by one. -/
theorem subtermsList_eq_flatMap (ts : List (Term α)) : subtermsList ts = ts.flatMap subterms := by
  induction ts with
  | nil => rfl
  | cons t rest ih => rw [subtermsList, ih, List.flatMap_cons]

/-- `subtermsFields` goes through `fields` one by one. -/
theorem subtermsFields_eq_flatMap (fields : List (String × Term α)) :
    subtermsFields fields = (fields.map Prod.snd).flatMap subterms := by
  induction fields with
  | nil => rfl
  | cons f rest ih => rw [subtermsFields, ih, List.map_cons, List.flatMap_cons]

/-- `subtermsArms` goes through `arms` one by one, conditions first. -/
theorem subtermsArms_eq_flatMap (arms : List (Term α × Term α)) :
    subtermsArms arms = (arms.flatMap fun arm => [arm.1, arm.2]).flatMap subterms := by
  induction arms with
  | nil => rfl
  | cons arm rest ih => simp [subtermsArms, ih]

/-- The parts of `t` are `t` itself and the parts of its children. -/
theorem subterms_eq (t : Term α) : t.subterms = t :: t.children.flatMap subterms := by
  cases t <;> simp [subterms, children, subtermsList_eq_flatMap, subtermsFields_eq_flatMap,
    subtermsArms_eq_flatMap]

/-- A part of `t` is `t` itself or a part of a child `u`. -/
theorem mem_subterms_iff {s t : Term α} :
    s ∈ t.subterms ↔ s = t ∨ ∃ u ∈ t.children, s ∈ u.subterms := by
  rw [subterms_eq, List.mem_cons, List.mem_flatMap]

/-- What `t` refers to in the module `m`, if it is a reference. -/
def refIn? (m : Option String) (t : Term α) : Option Ref := Candidates.ref? ⟨m, []⟩ t

/-- The reference `r` occurs at a position of `t`. -/
def OccursAt (m : Option String) (r : Ref) (t : Term α) (q : List Nat) : Prop :=
  ∃ s, t.at? q = some s ∧ s.refIn? m = some r

/-- The number of occurrences of `r` in `t`. -/
def occurrences (m : Option String) (r : Ref) (t : Term α) : Nat :=
  t.subterms.countP fun s => decide (s.refIn? m = some r)

/-- The occurrences of `r` in `t` are the root, if it is one, and those in the children. -/
theorem occurrences_eq (m : Option String) (r : Ref) (t : Term α) :
    t.occurrences m r = (if t.refIn? m = some r then 1 else 0) +
      (t.children.map (occurrences m r)).sum := by
  rw [occurrences, subterms_eq, List.countP_cons, List.countP_flatMap, Nat.add_comm]
  simp only [decide_eq_true_eq]
  rfl

/-- `r` occurs at `i :: q` if it occurs at `q` in the child `i`. -/
theorem occursAt_cons {m : Option String} {r : Ref} {t : Term α} {i : Nat} {q : List Nat} :
    OccursAt m r t (i :: q) ↔ ∃ s, t.children[i]? = some s ∧ OccursAt m r s q := by
  simp only [OccursAt, at?_cons, Option.bind_eq_some_iff]
  constructor
  · rintro ⟨u, ⟨s, hs, hu⟩, hr⟩
    exact ⟨s, hs, u, hu, hr⟩
  · rintro ⟨s, hs, u, hu, hr⟩
    exact ⟨u, ⟨s, hs, hu⟩, hr⟩

/-- The references that a `letIn` or a `letRec` binds. -/
def letRefs : Term α → List Ref
  | letIn _ b _ _ => [.bound b]
  | letRec _ level bindings _ => groupRefs level bindings
  | _ => []

/-- Some binding or recursive group of bindings in `t` binds `r`. -/
def Rebinds (r : Ref) (t : Term α) : Prop := ∃ s ∈ t.subterms, r ∈ s.letRefs

instance (r : Ref) (t : Term α) : Decidable (t.Rebinds r) :=
  inferInstanceAs (Decidable (∃ s ∈ t.subterms, r ∈ s.letRefs))

/-- What `t` does not bind, its child `s` does not. -/
theorem not_rebinds_child {r : Ref} {s t : Term α} (h : ¬t.Rebinds r) (hs : s ∈ t.children) :
    ¬s.Rebinds r := fun ⟨u, hu, hr⟩ => h ⟨u, mem_subterms_iff.2 (.inr ⟨s, hs, hu⟩), hr⟩

/-- What `t` does not bind, its root does not. -/
theorem not_mem_letRefs {r : Ref} {t : Term α} (h : ¬t.Rebinds r) : r ∉ t.letRefs :=
  fun hr => h ⟨t, mem_subterms_iff.2 (.inl rfl), hr⟩

/-! ## Calls -/

/-- The term at `p` is an application to `k` arguments given one by one. -/
def AppliedAt (t : Term α) (p : List Nat) (k : Nat) : Prop :=
  ∃ a head args, t.at? p = some (.app a .curried head args) ∧ args.length = k

/-- What stands at `q` is called at `p` with `k` arguments: it is the head of an application there,
or it stands for itself without arguments. -/
def CalledAt (t : Term α) (q p : List Nat) (k : Nat) : Prop :=
  q = p ++ [0] ∧ t.AppliedAt p k ∨ q = p ∧ k = 0 ∧ ∀ p' k', q = p' ++ [0] → ¬t.AppliedAt p' k'

/-- An application at `i :: p` is one at `p` in the child `i`. -/
theorem appliedAt_cons {t : Term α} {i k : Nat} {p : List Nat} :
    t.AppliedAt (i :: p) k ↔ ∃ s, t.children[i]? = some s ∧ s.AppliedAt p k := by
  simp only [AppliedAt, at?_cons, Option.bind_eq_some_iff]
  constructor
  · rintro ⟨a, head, args, ⟨s, hs, hp⟩, hk⟩
    exact ⟨s, hs, a, head, args, hp, hk⟩
  · rintro ⟨s, hs, a, head, args, hp, hk⟩
    exact ⟨a, head, args, ⟨s, hs, hp⟩, hk⟩

end Term

/-! ## Tail positions -/

/-- A position of an analysed term is in tail position: the way to it passes only through bodies and
defaults of branches, bodies of bindings, and bodies of recursive groups that are loops. -/
inductive TailPosition : Analyzed → List Nat → Prop
  | here (t : Analyzed) : TailPosition t []
  | arm {a : Analysis} {arms : List (Analyzed × Analyzed)} {default : Analyzed} {i : Nat}
      {cond body : Analyzed} {p : List Nat} :
      arms[i]? = some (cond, body) → TailPosition body p →
        TailPosition (.branch a arms default) ((2 * i + 1) :: p)
  | default {a : Analysis} {arms : List (Analyzed × Analyzed)} {default : Analyzed}
      {p : List Nat} :
      TailPosition default p → TailPosition (.branch a arms default) ((2 * arms.length) :: p)
  | letBody {a : Analysis} {b : Binder} {value body : Analyzed} {p : List Nat} :
      TailPosition body p → TailPosition (.letIn a b value body) (1 :: p)
  | loopBody {a : Analysis} {level : UInt32} {bindings : List (String × Analyzed)}
      {body : Analyzed} {p : List Nat} :
      a.isLoop = true → TailPosition body p →
        TailPosition (.letRec a level bindings body) (bindings.length :: p)

namespace Term

/-- Whether the child of number `i` of a node in tail position is in tail position. -/
def keepsTail : Analyzed → Nat → Bool
  | branch _ arms _, i => decide (i % 2 = 1) || decide (i = 2 * arms.length)
  | letIn .., i => decide (i = 1)
  | letRec a _ bindings _, i => a.isLoop && decide (i = bindings.length)
  | _, _ => false

/-- Conditions and bodies alternate among the children of a branch. -/
theorem getElem?_flatMap_arms (arms : List (Term α × Term α)) (i : Nat) :
    (arms.flatMap fun arm => [arm.1, arm.2])[i]? =
      arms[i / 2]?.map fun arm => if i % 2 = 0 then arm.1 else arm.2 := by
  induction arms generalizing i with
  | nil => simp
  | cons arm rest ih =>
    match i with
    | 0 => simp
    | 1 => simp
    | i + 2 =>
      simp only [List.flatMap_cons, List.cons_append, List.nil_append, List.getElem?_cons_succ, ih,
        Nat.add_mod_right]
      rw [show (i + 2) / 2 = i / 2 + 1 by omega, List.getElem?_cons_succ]

/-- Each of `arms` makes two children. -/
theorem length_flatMap_arms (arms : List (Term α × Term α)) :
    (arms.flatMap fun arm => [arm.1, arm.2]).length = 2 * arms.length := by
  induction arms with
  | nil => rfl
  | cons arm rest ih =>
    simp only [List.flatMap_cons, List.length_append, ih, List.length_cons, List.length_nil]
    omega

end Term

/-- `i :: p` is in tail position if the child `i` keeps it so, as `keepsTail` says, and `p` is in
tail position in the child. -/
theorem tailPosition_cons {t : Analyzed} {i : Nat} {p : List Nat} :
    TailPosition t (i :: p) ↔
      ∃ s, t.children[i]? = some s ∧ t.keepsTail i = true ∧ TailPosition s p := by
  constructor
  · intro h
    cases h with
    | @arm a arms default j cond body _ harm hp =>
      have hj : j < arms.length := (List.getElem?_eq_some_iff.1 harm).1
      refine ⟨body, ?_, by simp [Term.keepsTail], hp⟩
      rw [Term.children, List.getElem?_append_left (by rw [Term.length_flatMap_arms]; omega),
        Term.getElem?_flatMap_arms, show (2 * j + 1) / 2 = j by omega, harm]
      simp [show (2 * j + 1) % 2 = 1 by omega]
    | @default a arms default _ hp =>
      refine ⟨default, ?_, by simp [Term.keepsTail], hp⟩
      simp [Term.children, ← Term.length_flatMap_arms]
    | letBody hp => exact ⟨_, rfl, rfl, hp⟩
    | loopBody ha hp => exact ⟨_, by simp [Term.children], by simp [Term.keepsTail, ha], hp⟩
  · rintro ⟨s, hs, hk, hp⟩
    cases t with
    | branch a arms default =>
      simp only [Term.keepsTail, Bool.or_eq_true, decide_eq_true_eq] at hk
      -- the children of a branch are condition, body, condition, body, …, and the default last
      by_cases hi : i = 2 * arms.length
      · subst hi
        simp only [Term.children, ← Term.length_flatMap_arms, List.getElem?_concat_length,
          Option.some.injEq] at hs
        exact hs ▸ .default (hs ▸ hp)
      · have hodd : i % 2 = 1 := by omega
        have hlt : i < 2 * arms.length := by
          have := (List.getElem?_eq_some_iff.1 hs).1
          simp only [Term.children, List.length_append, Term.length_flatMap_arms, List.length_cons,
            List.length_nil] at this
          omega
        rw [Term.children, List.getElem?_append_left (by rw [Term.length_flatMap_arms]; omega),
          Term.getElem?_flatMap_arms] at hs
        obtain ⟨⟨cond, body⟩, harm, hbody⟩ := Option.map_eq_some_iff.1 hs
        simp only [hodd, Nat.one_ne_zero, if_false] at hbody
        subst hbody
        rw [show i = 2 * (i / 2) + 1 by omega]
        exact .arm harm hp
    | letIn a b value body =>
      simp only [Term.keepsTail, decide_eq_true_eq] at hk
      subst hk
      obtain rfl : body = s := by simpa [Term.children] using hs
      exact .letBody hp
    | letRec a level bindings body =>
      simp only [Term.keepsTail, Bool.and_eq_true, decide_eq_true_eq] at hk
      obtain ⟨ha, rfl⟩ := hk
      obtain rfl : body = s := by simpa [Term.children] using hs
      exact .loopBody ha hp
    | _ => simp [Term.keepsTail] at hk

/-! ## Call sites -/

/-- One call of a reference in a term. -/
structure CallSite where
  /-- The position of the occurrence. -/
  position : List Nat
  /-- The number of arguments. -/
  args : Nat
  /-- Whether the call is in tail position. -/
  tail : Bool

/-- A call in a child, seen from the term; `keep` says whether the child is in tail position. -/
def CallSite.below (i : Nat) (keep : Bool) (s : CallSite) : CallSite :=
  ⟨i :: s.position, s.args, keep && s.tail⟩

namespace Term

/-- The calls of `r` at the root: the term is `r`, or `r` applied to arguments. -/
def rootCalls (m : Option String) (r : Ref) : Term α → List CallSite
  | app _ .curried head args =>
    if head.refIn? m = some r then [⟨[0], args.length, true⟩] else []
  | t => if t.refIn? m = some r then [⟨[], 0, true⟩] else []

/-- The first child is a reference that is applied, which is counted at the root. -/
def appliesRef : Term α → Bool
  | app _ .curried head _ => head.ref?.isSome
  | _ => false

/-- The children in which calls are looked for, with their numbers. -/
def searched (t : Term α) : List (Term α × Nat) :=
  t.children.zipIdx.filter fun x => !(t.appliesRef && decide (x.2 = 0))

/-- Calls are looked for in all children of `t` but an applied reference. -/
theorem mem_searched_iff {t s : Term α} {i : Nat} :
    (s, i) ∈ t.searched ↔ t.children[i]? = some s ∧ ¬(t.appliesRef = true ∧ i = 0) := by
  rw [searched, List.mem_filter, List.mem_zipIdx_iff_getElem?]
  cases t.appliesRef <;> simp

/-- Below an applied reference, calls are looked for in `args`. -/
theorem searched_of_appliedRef {a : α} {head : Term α} {args : List (Term α)}
    (h : head.ref?.isSome = true) : (app a .curried head args).searched = args.zipIdx 1 := by
  simp only [searched, children, appliesRef, h, List.zipIdx_cons]
  rw [List.filter_cons_of_neg (by simp), List.filter_eq_self]
  rintro ⟨s, i⟩ hs
  have := (List.mem_zipIdx hs).1
  simp
  omega

/-- Unless `t` applies a reference, calls are looked for in all children. -/
theorem searched_of_not_appliesRef {t : Term α} (h : t.appliesRef = false) :
    t.searched = t.children.zipIdx := by
  simp [searched, h]

/-- A child in which calls are looked for is smaller than `t`. -/
theorem sizeOf_lt_of_mem_searched [SizeOf α] {t : Term α} {x : Term α × Nat}
    (h : x ∈ t.searched) : sizeOf x.1 < sizeOf t :=
  sizeOf_lt_of_mem_children (List.mem_of_getElem? (mem_searched_iff.1 h).1)

/-- All calls of `r` in an analysed term, in order. -/
def callSites (m : Option String) (r : Ref) (t : Analyzed) : List CallSite :=
  t.rootCalls m r ++ t.searched.attach.flatMap fun x =>
    (callSites m r x.1.1).map (.below x.1.2 (keepsTail t x.1.2))
termination_by sizeOf t
decreasing_by exact sizeOf_lt_of_mem_searched x.2

/-- The calls of `r` in `t` are those at the root and those in the `searched` children. -/
theorem callSites_eq (m : Option String) (r : Ref) (t : Analyzed) :
    t.callSites m r = t.rootCalls m r ++ t.searched.flatMap fun x =>
      (x.1.callSites m r).map (.below x.2 (t.keepsTail x.2)) := by
  rw [callSites]
  conv => rhs; rw [← List.attach_map_subtype_val t.searched, List.flatMap_map]

/-- A call is at the root or in one of the `searched` children. -/
theorem mem_callSites {m : Option String} {r : Ref} {t : Analyzed} {x : CallSite} :
    x ∈ t.callSites m r ↔ x ∈ t.rootCalls m r ∨
      ∃ s i y, (s, i) ∈ t.searched ∧ y ∈ s.callSites m r ∧ y.below i (t.keepsTail i) = x := by
  rw [callSites_eq, List.mem_append, List.mem_flatMap]
  constructor
  · rintro (h | ⟨⟨s, i⟩, hs, hx⟩)
    · exact .inl h
    · obtain ⟨y, hy, rfl⟩ := List.mem_map.1 hx
      exact .inr ⟨s, i, y, hs, hy, rfl⟩
  · rintro (h | ⟨s, i, y, hs, hy, rfl⟩)
    · exact .inl h
    · exact .inr ⟨(s, i), hs, List.mem_map.2 ⟨y, hy, rfl⟩⟩

/-- What `refIn?` finds in a module, `ref?` finds too. -/
theorem isSome_ref?_of_refIn? {m : Option String} {r : Ref} {t : Term α}
    (h : t.refIn? m = some r) : t.ref?.isSome = true := by
  obtain ⟨r', hr', -⟩ := Option.map_eq_some_iff.1 h
  rw [hr']
  rfl

/-- Where `r` occurs at the root, `t` is a reference. -/
theorem OccursAt.isSome_ref? {m : Option String} {r : Ref} {t : Term α} {q : List Nat}
    (h : OccursAt m r t q) (hq : q = []) : t.ref?.isSome = true := by
  subst hq
  obtain ⟨s, hs, hr⟩ := h
  obtain rfl : t = s := Option.some.inj hs
  exact isSome_ref?_of_refIn? hr

/-- A reference has no children. -/
theorem children_of_isSome_ref? {t : Term α} (h : t.ref?.isSome = true) : t.children = [] := by
  cases t with
  | global | bound => rfl
  | _ => simp [ref?] at h

/-- A call at the root is `t` itself or an application of `r`. -/
theorem mem_rootCalls {m : Option String} {r : Ref} {t : Term α} {x : CallSite} :
    x ∈ t.rootCalls m r ↔
      (t.refIn? m = some r ∧ x = ⟨[], 0, true⟩) ∨
        ∃ a head args, t = .app a .curried head args ∧ head.refIn? m = some r ∧
          x = ⟨[0], args.length, true⟩ := by
  unfold rootCalls
  split
  · rename_i a head args
    -- a call is no reference itself
    have hself : refIn? m (app a .curried head args) ≠ some r := by
      intro h
      cases isSome_ref?_of_refIn? h
    constructor
    · intro h
      split at h
      · exact .inr ⟨a, head, args, rfl, ‹_›, List.mem_singleton.1 h⟩
      · cases h
    · rintro (⟨h, -⟩ | ⟨a', head', args', h, hr, rfl⟩)
      · exact absurd h hself
      · cases h
        rw [if_pos hr]
        exact List.mem_singleton.2 rfl
  · rename_i happ
    constructor
    · intro h
      split at h
      · exact .inl ⟨‹_›, List.mem_singleton.1 h⟩
      · cases h
    · rintro (⟨h, rfl⟩ | ⟨a, head, args, h, -, -⟩)
      · rw [if_pos h]
        exact List.mem_singleton.2 rfl
      · exact absurd h (happ a head args)

/-- An application at the root whose head is a reference is one that `appliesRef` sees. -/
theorem appliesRef_of_appliedAt_nil {t s : Term α} {k : Nat} (ht : t.AppliedAt [] k)
    (hs : t.children[0]? = some s) (href : s.ref?.isSome = true) : t.appliesRef = true := by
  obtain ⟨a, head, args, h, -⟩ := ht
  cases h
  cases hs
  exact href

/-- A call at `i :: q` is one at `q` in the child `i`, unless it is an applied reference. -/
theorem calledAt_cons {t s : Term α} {i k : Nat} {q p : List Nat} (hs : (s, i) ∈ t.searched)
    (hq : q = [] → s.ref?.isSome = true) :
    t.CalledAt (i :: q) p k ↔ ∃ p', p = i :: p' ∧ s.CalledAt q p' k := by
  obtain ⟨hs, hskip⟩ := mem_searched_iff.1 hs
  -- the root does not apply what stands at `i :: q`
  have hroot : ∀ k', i :: q = [] ++ [0] → ¬t.AppliedAt [] k' := by
    intro k' h happ
    simp only [List.nil_append, List.cons.injEq] at h
    obtain ⟨rfl, rfl⟩ := h
    exact hskip ⟨appliesRef_of_appliedAt_nil happ hs (hq rfl), rfl⟩
  have hbelow (p' : List Nat) (k' : Nat) : t.AppliedAt (i :: p') k' ↔ s.AppliedAt p' k' := by
    rw [appliedAt_cons]
    simp [hs]
  constructor
  · rintro (⟨hp, happ⟩ | ⟨rfl, rfl, hno⟩)
    · cases p with
      | nil => exact absurd happ (hroot k hp)
      | cons j p' =>
        simp only [List.cons_append, List.cons.injEq] at hp
        obtain ⟨rfl, hp⟩ := hp
        exact ⟨p', rfl, .inl ⟨hp, (hbelow p' k).1 happ⟩⟩
    · refine ⟨q, rfl, .inr ⟨rfl, rfl, fun p' k' hp' happ => ?_⟩⟩
      exact hno (i :: p') k' (by rw [hp']; rfl) ((hbelow p' k').2 happ)
  · rintro ⟨p', rfl, ⟨hp, happ⟩ | ⟨rfl, rfl, hno⟩⟩
    · exact .inl ⟨by rw [hp]; rfl, (hbelow p' k).2 happ⟩
    · refine .inr ⟨rfl, rfl, fun p' k' hp' happ => ?_⟩
      cases p' with
      | nil => exact hroot k' hp' happ
      | cons j p' =>
        simp only [List.cons_append, List.cons.injEq] at hp'
        obtain ⟨rfl, hp'⟩ := hp'
        exact hno p' k' hp' ((hbelow p' k').1 happ)

/-- The call at `i :: q`, unless it is at the root of `s` and applied by `t`, is looked for in the
child `s`. -/
theorem mem_searched_of_calledAt {m : Option String} {r : Ref} {t s : Term α} {i k : Nat}
    {q p : List Nat} (hs : t.children[i]? = some s) (hq : OccursAt m r s q)
    (hcall : t.CalledAt (i :: q) p k) (hp : p ≠ []) : (s, i) ∈ t.searched := by
  refine mem_searched_iff.2 ⟨hs, fun ⟨hskip, hi⟩ => ?_⟩
  subst hi
  cases t with
  | app a calling head args =>
    cases calling with
    | curried =>
      obtain rfl : head = s := by simpa [children] using hs
      have hleaf : head.children = [] := children_of_isSome_ref? hskip
      -- a reference has nothing below it, so the occurrence is the head itself
      have hnil : q = [] := by
        cases q with
        | nil => rfl
        | cons j q =>
          obtain ⟨u, hu, -⟩ := occursAt_cons.1 hq
          simp [hleaf] at hu
      subst hnil
      rcases hcall with ⟨h, -⟩ | ⟨rfl, -, hno⟩
      · cases p with
        | nil => exact hp rfl
        | cons j p => simp at h
      · exact hno [] args.length rfl ⟨a, head, args, rfl, rfl⟩
    | _ => simp [appliesRef] at hskip
  | _ => simp [appliesRef] at hskip

/-- The calls of `r` are its occurrences, with the number of arguments of the application that they
head, and in tail position if that application is. -/
theorem mem_callSites_iff {m : Option String} {r : Ref} (t : Analyzed) (x : CallSite) :
    x ∈ t.callSites m r ↔ OccursAt m r t x.position ∧
      ∃ p, t.CalledAt x.position p x.args ∧ (x.tail = true ↔ TailPosition t p) := by
  induction t using children_induction generalizing x with
  | step t ih =>
  constructor
  · intro hx
    rcases mem_callSites.1 hx with hroot | ⟨s, i, y, hs, hy, rfl⟩
    -- a call at the root: the term itself, or the head of the application that it is
    · rcases mem_rootCalls.1 hroot with ⟨hr, rfl⟩ | ⟨a, head, args, rfl, hr, rfl⟩
      · exact ⟨⟨t, rfl, hr⟩, [], .inr ⟨rfl, rfl, by simp⟩, by simp [TailPosition.here]⟩
      · exact ⟨⟨head, rfl, hr⟩, [], .inl ⟨rfl, a, head, args, rfl, rfl⟩,
          by simp [TailPosition.here]⟩
    · have hchild := (mem_searched_iff.1 hs).1
      obtain ⟨hoccurs, p, hcall, htail⟩ := (ih s (List.mem_of_getElem? hchild) y).1 hy
      refine ⟨occursAt_cons.2 ⟨s, hchild, hoccurs⟩, i :: p, ?_, ?_⟩
      · exact (calledAt_cons hs hoccurs.isSome_ref?).2 ⟨p, rfl, hcall⟩
      · rw [tailPosition_cons]
        simp [CallSite.below, hchild, htail]
  · rintro ⟨hoccurs, p, hcall, htail⟩
    obtain ⟨position, k, tail⟩ := x
    rw [mem_callSites]
    cases position with
    | nil =>
      -- the term itself, which nothing is applied to
      obtain ⟨s, hs, hr⟩ := hoccurs
      cases hs
      rcases hcall with ⟨h, -⟩ | ⟨rfl, hk, -⟩
      · simp at h
      · simp only at hk htail
        have htail : tail = true := htail.2 (.here t)
        exact .inl (mem_rootCalls.2 (.inl ⟨hr, by rw [hk, htail]⟩))
    | cons i q =>
      obtain ⟨s, hs, hq⟩ := occursAt_cons.1 hoccurs
      by_cases hp : p = []
      -- the head of the term
      · subst hp
        rcases hcall with ⟨h, a, head, args, happ, hk⟩ | ⟨h, -⟩
        · simp only [List.nil_append, List.cons.injEq] at h
          obtain ⟨rfl, rfl⟩ := h
          cases happ
          cases hs
          obtain ⟨u, hu, hr⟩ := hq
          cases hu
          have htail : tail = true := htail.2 (.here _)
          refine .inl (mem_rootCalls.2 (.inr ⟨a, s, args, rfl, hr, ?_⟩))
          rw [hk, htail]
        · cases h
      -- an occurrence whose application is in a child
      · have hsearched := mem_searched_of_calledAt hs hq hcall hp
        obtain ⟨p', rfl, hcall'⟩ := (calledAt_cons hsearched hq.isSome_ref?).1 hcall
        rw [tailPosition_cons] at htail
        simp only [hs, Option.some.injEq, exists_eq_left'] at htail
        classical
        refine .inr ⟨s, i, ⟨q, k, decide (TailPosition s p')⟩, hsearched, ?_, ?_⟩
        · exact (ih s (List.mem_of_getElem? hs) _).2 ⟨hq, p', hcall', by simp⟩
        · simp only [CallSite.below, CallSite.mk.injEq, true_and]
          rw [Bool.eq_iff_iff, htail]
          simp

/-- There are as many calls of `r` as occurrences. -/
theorem length_callSites (m : Option String) (r : Ref) (t : Analyzed) :
    (t.callSites m r).length = t.occurrences m r := by
  induction t using children_induction with
  | step t ih =>
  have hsum (xs : List (Analyzed × Nat)) (hxs : ∀ x ∈ xs, x.1 ∈ t.children) :
      (xs.flatMap fun x =>
          (x.1.callSites m r).map (CallSite.below x.2 (t.keepsTail x.2))).length =
        ((xs.map Prod.fst).map (occurrences m r)).sum := by
    rw [List.length_flatMap, List.map_map]
    congr 1
    refine List.map_congr_left fun x hx => ?_
    rw [List.length_map, ih x.1 (hxs x hx)]
    rfl
  have hmem (x : Analyzed × Nat) (hx : x ∈ t.searched) : x.1 ∈ t.children :=
    List.mem_of_getElem? (mem_searched_iff.1 hx).1
  rw [callSites_eq, List.length_append, hsum _ hmem, occurrences_eq]
  -- a reference that is applied is counted at the call and not again as a child
  cases happ : t.appliesRef with
  | false =>
    have hroot : (t.rootCalls m r).length = if t.refIn? m = some r then 1 else 0 := by
      unfold rootCalls
      split
      · rename_i a head args
        have hhead : head.refIn? m ≠ some r := by
          intro h
          have := isSome_ref?_of_refIn? h
          rw [appliesRef, this] at happ
          cases happ
        rw [if_neg hhead, if_neg (by simp [refIn?, Candidates.ref?, ref?])]
        rfl
      · split <;> rfl
    rw [searched_of_not_appliesRef happ, List.zipIdx_map_fst, hroot]
  | true =>
    cases t with
    | app a calling head args =>
      cases calling with
      | curried =>
        have hhead : head.children = [] := children_of_isSome_ref? happ
        have hself : refIn? m (app a .curried head args) ≠ some r := by
          simp [refIn?, Candidates.ref?, ref?]
        rw [searched_of_appliedRef happ, List.zipIdx_map_fst, rootCalls, children, List.map_cons,
          List.sum_cons, occurrences_eq m r head, hhead, if_neg hself, Nat.zero_add]
        split <;> simp
      | _ => simp [appliesRef] at happ
    | _ => simp [appliesRef] at happ

end Term

end TailLoop
