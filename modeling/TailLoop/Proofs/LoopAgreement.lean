import TailLoop.Proofs.LoopJumps

/-!
# Agreement of analysis and lowering

Lowering a term in which all flagged groups are called in the way of a loop is calm, and every
reference to a member of a loop in the body of the loop becomes a jump.

* `Lowered`: what holds of the ways to lower a term.
* `lowered_code`: it holds of all terms.
-/

namespace TailLoop.Lower

open Script Lowering Term

/-- `t` mentions no member of the loops `S`. -/
def Silent (m : Option String) (S : List LoopScope) (t : Analyzed) : Prop :=
  ∀ s ∈ S, t.mentions m (s.members.map Prod.fst) = 0

/-- Where `t` mentions no member, its child `s` mentions none. -/
theorem Silent.child {m : Option String} {S : List LoopScope} {s t : Analyzed} (h : Silent m S t)
    (hs : s ∈ t.children) : Silent m S s := fun scope hscope => mentions_child (h scope hscope) hs

/-- `t` mentions no member of the loops `s :: S` if it mentions none of `s` and none of `S`. -/
theorem Silent.cons {m : Option String} {s : LoopScope} {S : List LoopScope} {t : Analyzed}
    (h : t.mentions m (s.members.map Prod.fst) = 0) (hS : Silent m S t) : Silent m (s :: S) t := by
  intro s' hs'
  rcases List.mem_cons.1 hs' with rfl | hs'
  · exact h
  · exact hS s' hs'

/-- `t` can stand in the body of the loop `s`: every call of a member is a tail call with all
arguments, and the loop has slots for them. -/
structure Jumping (m : Option String) (s : LoopScope) (t : Analyzed) : Prop where
  /-- Members have parameters. -/
  pos : ∀ x ∈ s.members, 0 < x.2
  /-- There are slots enough. -/
  slots : ∀ x ∈ s.members, x.2 ≤ s.slots.length
  /-- Calls of members are full tail calls. -/
  calls : t.CallsFully m s.members

/-- Another term `u` whose calls are full tail calls can stand in the body of the same loop. -/
theorem Jumping.of_calls {m : Option String} {s : LoopScope} {t u : Analyzed} (h : Jumping m s t)
    (hu : u.CallsFully m s.members) : Jumping m s u := ⟨h.pos, h.slots, hu⟩

/-- In the loops `s :: S`, the block jumps once for every reference to a member of `s`. -/
def JumpsFully (c : Context) (s : LoopScope) (S : List LoopScope) (t : Analyzed) : Prop :=
  CalmStep (s :: S) ((code c t).block .looping) fun b =>
    jumpCounts b = t.loopSizes (some c.name) ∧
      jumpsIn b = t.mentions (some c.name) (s.members.map Prod.fst)

/-- What holds of the ways to lower `t`. Which of the two applies depends on whether `t` stands in
the body of a loop. -/
structure Lowered (c : Context) (t : Analyzed) : Prop where
  /-- Where no member of a loop is mentioned, nothing jumps, and all loops in the term have their
  jumps. -/
  emits : ∀ S, Silent (some c.name) S t → (code c t).Emits S (t.loopSizes (some c.name))
  /-- In the body of a loop, all references to members become jumps. -/
  jumps : ∀ s S, Jumping (some c.name) s t → Silent (some c.name) S t → JumpsFully c s S t
  /-- So they do in the body of a function that is a member. -/
  function : ∀ a params body, t = .abs a .curried params body → ∀ s S,
    Jumping (some c.name) s body → Silent (some c.name) S body → JumpsFully c s S body

variable {c : Context} {t : Analyzed}

/-- Where there is no function, nothing has to be shown of its body. -/
theorem forall_of_body? (h : t.body? = none) {p : Analysis → List Binder → Analyzed → Prop} :
    ∀ a params body, t = .abs a .curried params body → p a params body := by
  rintro a params body rfl
  cases h

/-- A node that is no call and loses tail position everywhere has no jumps of its own, so it is
enough that it `Emits` its loops. -/
theorem Lowered.of_plain
    (hemits : ∀ S, Silent (some c.name) S t → (code c t).Emits S (t.loopSizes (some c.name)))
    (happ : t.appliesRef = false)
    (hroot : ∀ r, t.rootCalls (some c.name) r =
      if t.refIn? (some c.name) = some r then [⟨[], 0, true⟩] else [])
    (hk : ∀ i, t.keepsTail i = false)
    (hbody : t.body? = none) : Lowered c t where
  emits := hemits
  jumps s S hs hS := by
    have hzero := hs.calls.mentions_eq_zero hs.pos happ hroot hk
    rw [JumpsFully, hzero]
    exact (hemits (s :: S) (.cons hzero hS)).block .looping
  function := forall_of_body? hbody

/-! ## Leaves -/

section

variable {a : Analysis}

/-- `global` becomes a name. -/
theorem lowered_global {q : Qualified} : Lowered c (.global a q) := by
  refine .of_plain (fun S _ => ?_) rfl (fun _ => rfl) (fun _ => rfl) rfl
  refine emits_ofValue (.pure ?_)
  rw [globalExpr]
  split
  · rfl
  · split <;> rfl

/-- A variable, read under the name of its binder `b`. -/
theorem lowered_bound {b : Binder} : Lowered c (.bound a b) := by
  refine .of_plain (fun S _ => ?_) rfl (fun _ => rfl) (fun _ => rfl) rfl
  exact emits_ofValue ((calmStep_nameOf b).map fun _ _ => rfl)

/-- `lit` becomes a constant. -/
theorem lowered_lit {value : Literal} : Lowered c (.lit a value) := by
  refine .of_plain (fun S _ => ?_) rfl (fun _ => rfl) (fun _ => rfl) rfl
  exact emits_ofValue (.pure (by cases value <;> rfl))

/-- `constructor` becomes a function without loops. -/
theorem lowered_constructor {tag : String} {fields : List String} :
    Lowered c (.constructor a tag fields) := by
  refine .of_plain (fun S _ => ?_) rfl (fun _ => rfl) (fun _ => rfl) rfl
  refine emits_ofValue ((calmStep_freshNames fields).map fun names _ => ?_)
  rw [constructorExpr]
  split <;> simp [tagField, List.flatMap_map, loopSizes_eq, loopSize?, children]

/-- `undefined`. -/
theorem lowered_undefined : Lowered c (.undefined a) := by
  refine .of_plain (fun S _ => ?_) rfl (fun _ => rfl) (fun _ => rfl) rfl
  exact emits_ofReturn (.pure rfl) (.pure ⟨rfl, rfl⟩)

/-- `fail` becomes a failure. -/
theorem lowered_fail {message : String} : Lowered c (.fail a message) := by
  refine .of_plain (fun S _ => ?_) rfl (fun _ => rfl) (fun _ => rfl) rfl
  exact emits_ofBlock fun _ => .pure ⟨rfl, rfl⟩

end

/-! ## Lists and fields -/

/-- `fieldCodes`: the parts of an object literal. -/
theorem calmStep_fieldCodes {S : List LoopScope} {fields : List (String × Analyzed)}
    (h : ∀ f ∈ fields, (code c f.2).Emits S (f.2.loopSizes (some c.name))) :
    CalmStep S (all (fieldCodes c fields)) fun fs => fs.flatMap Field.jumpCounts =
      (fields.map Prod.snd).flatMap (loopSizes (some c.name)) := by
  rw [fieldCodes_eq_map, List.flatMap_map]
  refine (calmStep_all (f := Field.jumpCounts) fun f hf => ?_).mono fun fs hfs => hfs.2
  exact (h f hf).value.map fun e he => he

section

variable {a : Analysis}

/-- The `items` of an array are in no tail position. -/
theorem lowered_array {items : List Analyzed} (h : ∀ s ∈ items, Lowered c s) :
    Lowered c (.array a items) := by
  refine .of_plain (fun S hS => ?_) rfl (fun _ => rfl) (fun _ => rfl) rfl
  rw [code, valueCodes_eq_map, loopSizes_eq]
  have hitems := calmStep_all fun s hs => ((h s hs).emits S (hS.child hs)).value
  refine emits_ofValue (hitems.map fun es hes => ?_)
  rw [Expr.jumpCounts_array, hes.2]
  rfl

variable {fields : List (String × Analyzed)} (h : ∀ s ∈ fields.map Prod.snd, Lowered c s)

include h

/-- Nor are the `fields` of a record. -/
theorem lowered_record : Lowered c (.record a fields) := by
  refine .of_plain (fun S hS => ?_) rfl (fun _ => rfl) (fun _ => rfl) rfl
  rw [code, loopSizes_eq]
  refine emits_ofObject ((calmStep_fieldCodes fun f hf => ?_).map fun fs hfs => ?_)
  · have hs : f.2 ∈ fields.map Prod.snd := List.mem_map.2 ⟨f, hf, rfl⟩
    exact (h f.2 hs).emits S (hS.child hs)
  · rw [Expr.jumpCounts_object, hfs]
    rfl

/-- Nor are those of a constructor that is applied. -/
theorem lowered_construct {type : Qualified} {tag : String} :
    Lowered c (.construct a type tag fields) := by
  refine .of_plain (fun S hS => ?_) rfl (fun _ => rfl) (fun _ => rfl) rfl
  rw [code, loopSizes_eq]
  refine emits_ofObject ((calmStep_fieldCodes fun f hf => ?_).map fun fs hfs => ?_)
  · have hs : f.2 ∈ fields.map Prod.snd := List.mem_map.2 ⟨f, hf, rfl⟩
    exact (h f.2 hs).emits S (hS.child hs)
  · rw [Expr.jumpCounts_object, List.flatMap_cons, hfs]
    rfl

/-- Nor are `subject` and the `fields` that an update sets. -/
theorem lowered_update {subject : Analyzed} (hsubject : Lowered c subject) :
    Lowered c (.update a subject fields) := by
  refine .of_plain (fun S hS => ?_) rfl (fun _ => rfl) (fun _ => rfl) rfl
  rw [code, loopSizes_eq]
  have hspread := hsubject.emits S (hS.child (List.mem_cons_self ..))
  refine emits_ofObject (hspread.value.bind fun e he => ?_)
  refine (calmStep_fieldCodes fun f hf => ?_).map fun fs hfs => ?_
  · have hs : f.2 ∈ fields.map Prod.snd := List.mem_map.2 ⟨f, hf, rfl⟩
    exact (h f.2 hs).emits S (hS.child (List.mem_cons_of_mem _ hs))
  · rw [Expr.jumpCounts_object, List.flatMap_cons, hfs, Field.jumpCounts_spread, he]
    rfl

end

/-! ## Operators -/

section

variable {a : Analysis} (h : Lowered c t)

include h

/-- What `accessor` reads from a value. -/
theorem lowered_access {accessor : Accessor} : Lowered c (.access a t accessor) := by
  refine .of_plain (fun S hS => ?_) rfl (fun _ => rfl) (fun _ => rfl) rfl
  have hsubject := h.emits S (hS.child (List.mem_singleton.2 rfl))
  rw [code, loopSizes_eq]
  refine emits_ofValue (hsubject.value.map fun e he => ?_)
  cases accessor <;> simp [accessExpr, he, wordLit, loopSize?, children]

/-- Whether a value passes `guard`. -/
theorem lowered_test {guard : Guard} : Lowered c (.test a t guard) := by
  refine .of_plain (fun S hS => ?_) rfl (fun _ => rfl) (fun _ => rfl) rfl
  have hsubject := h.emits S (hS.child (List.mem_singleton.2 rfl))
  rw [code, loopSizes_eq]
  refine emits_ofValue (hsubject.value.map fun e he => ?_)
  cases guard with
  | boolean value => cases value <;> simp [testExpr, he, loopSize?, children]
  | _ => simp [testExpr, he, wordLit, loopSize?, children]

/-- Nor is the operand `t`. -/
theorem lowered_unary {op : UnaryOp} : Lowered c (.unary a op t) := by
  refine .of_plain (fun S hS => ?_) rfl (fun _ => rfl) (fun _ => rfl) rfl
  have hoperand := h.emits S (hS.child (List.mem_singleton.2 rfl))
  rw [code, loopSizes_eq]
  refine emits_ofValue (hoperand.value.map fun e he => ?_)
  simp [he, loopSize?, children]

/-- Nor are the operands `t` and `t'`. -/
theorem lowered_binary {op : BinaryOp} {t' : Analyzed} (h' : Lowered c t') :
    Lowered c (.binary a op t t') := by
  refine .of_plain (fun S hS => ?_) rfl (fun _ => rfl) (fun _ => rfl) rfl
  have hleft := h.emits S (hS.child (List.mem_cons_self ..))
  have hright := h'.emits S (hS.child (List.mem_cons_of_mem _ (List.mem_singleton.2 rfl)))
  rw [code, loopSizes_eq]
  refine emits_ofValue (hleft.value.bind fun e he => hright.value.map fun e' he' => ?_)
  simp [he, he', loopSize?, children]

end

/-! ## Applications and functions -/

/-- A call of the member `r` of the loop `s` is lowered to a jump. -/
theorem jumpsFully_app {a : Analysis} {head : Analyzed} {args : List Analyzed} {s : LoopScope}
    {S : List LoopScope} {r : Ref} (hargs : ∀ u ∈ args, Lowered c u)
    (hs : Jumping (some c.name) s (.app a .curried head args))
    (hS : Silent (some c.name) S (.app a .curried head args))
    (hhead : head.refIn? (some c.name) = some r) (hr : r ∈ s.members.map Prod.fst) :
    JumpsFully c s S (.app a .curried head args) := by
  have href : head.ref?.map (Ref.within c.name) = some r := hhead
  have hsome : head.ref?.isSome = true := isSome_ref?_of_refIn? hhead
  have hzero := hs.calls.mentions_args
  have hemits (u : Analyzed) (hu : u ∈ args) :
      (code c u).Emits (s :: S) (u.loopSizes (some c.name)) :=
    (hargs u hu).emits (s :: S) (.cons (hzero u hu) (hS.child (List.mem_cons_of_mem _ hu)))
  -- the head is a reference and holds no loops
  have hsizes : (Term.app a .curried head args).loopSizes (some c.name) =
      args.flatMap (loopSizes (some c.name)) := by
    have hhead : head.loopSizes (some c.name) = [] := by
      cases head <;> first | rfl | simp [ref?] at hsome
    rw [loopSizes_eq, children, List.flatMap_cons, hhead]
    rfl
  -- the call itself is the only one: none is in an argument
  have hmentions : (Term.app a .curried head args).mentions (some c.name)
      (s.members.map Prod.fst) = 1 := by
    have hself : head.mentions (some c.name) (s.members.map Prod.fst) = 1 := by
      rw [mentions_eq, children_of_isSome_ref? hsome, if_pos ⟨r, hr, hhead⟩]
      rfl
    have hrest : (args.map (mentions (some c.name) (s.members.map Prod.fst))).sum = 0 := by
      rw [List.map_congr_left hzero, List.map_const', List.sum_replicate_nat, Nat.mul_zero]
    rw [mentions_eq, children, List.map_cons, List.sum_cons, hself, hrest, if_neg]
    simp [refIn?, Candidates.ref?, ref?]
  rw [JumpsFully, hsizes, hmentions, code, valueCodes_eq_map, href]
  refine (calmStep_jump?_some hr ?_ fun u hu => (hemits u hu).value).bind fun stmts? hstmts => ?_
  · exact fun x hx hxr => ⟨hs.calls.length_args hx (hxr ▸ hhead), hs.slots x hx⟩
  · obtain ⟨stmts, rfl, hstmts⟩ := hstmts
    exact .pure hstmts

/-- A call with arguments one by one. As the call of a member it is a jump, and otherwise it
mentions none. -/
theorem lowered_app {a : Analysis} {head : Analyzed} {args : List Analyzed}
    (hhead : Lowered c head) (hargs : ∀ u ∈ args, Lowered c u) :
    Lowered c (.app a .curried head args) := by
  have hemits (S : List LoopScope) (hS : Silent (some c.name) S (.app a .curried head args)) :
      (code c (.app a .curried head args)).Emits S
        ((Term.app a .curried head args).loopSizes (some c.name)) := by
    rw [loopSizes_eq, code, valueCodes_eq_map]
    refine emits_appCode ?_ (hhead.emits S (hS.child (List.mem_cons_self ..))).value
      fun u hu => ((hargs u hu).emits S (hS.child (List.mem_cons_of_mem _ hu))).value
    intro r hr s hs hmem
    exact refIn?_ne_of_mentions (mentions_child (hS s hs) (List.mem_cons_self ..)) hmem hr
  refine ⟨hemits, ?_, forall_of_body? rfl⟩
  intro s S hs hS
  by_cases hr : ∃ r ∈ s.members.map Prod.fst, head.refIn? (some c.name) = some r
  · obtain ⟨r, hr, href⟩ := hr
    exact jumpsFully_app hargs hs hS href hr
  · have hzero := hs.calls.mentions_app fun r hmem href => hr ⟨r, hmem, href⟩
    rw [JumpsFully, hzero]
    exact (hemits (s :: S) (.cons hzero hS)).block .looping

/-- A call with all arguments at once is no call of a member. -/
theorem lowered_appAll {a : Analysis} {head : Analyzed} {args : List Analyzed}
    (hhead : Lowered c head) (hargs : ∀ u ∈ args, Lowered c u) :
    Lowered c (.app a .uncurried head args) := by
  refine .of_plain (fun S hS => ?_) rfl (fun _ => rfl) (fun _ => rfl) rfl
  rw [code, valueCodes_eq_map, loopSizes_eq]
  refine emits_ofValue (calmStep_callAll ?_ fun u hu => ?_)
  · exact (hhead.emits S (hS.child (List.mem_cons_self ..))).value
  · exact ((hargs u hu).emits S (hS.child (List.mem_cons_of_mem _ hu))).value

/-- Nor is one that runs an effect. -/
theorem lowered_appEffect {a : Analysis} {head : Analyzed} {args : List Analyzed}
    (hhead : Lowered c head) (hargs : ∀ u ∈ args, Lowered c u) :
    Lowered c (.app a .effectful head args) := by
  refine .of_plain (fun S hS => ?_) rfl (fun _ => rfl) (fun _ => rfl) rfl
  rw [code, valueCodes_eq_map, loopSizes_eq]
  have hfirst := hhead.emits S (hS.child (List.mem_cons_self ..))
  exact emits_effectAppCode hfirst.value fun u hu =>
    ((hargs u hu).emits S (hS.child (List.mem_cons_of_mem _ hu))).value

section

variable {a : Analysis} {params : List Binder} {body : Analyzed}

/-- The loops in a function are those in its `body`. -/
theorem loopSizes_abs (m : Option String) (calling : Calling) :
    (Term.abs a calling params body).loopSizes m = body.loopSizes m := by
  rw [loopSizes_eq]
  simp [loopSize?, children]

variable (h : Lowered c body)

include h

/-- A curried function. As a value it is lowered whatever loops there are; as a member of a loop,
only its `body` is lowered, and the jumps of the body are those to the loop. -/
theorem lowered_curried : Lowered c (.abs a .curried params body) := by
  have hplain (S : List LoopScope) (hS : Silent (some c.name) S (.abs a .curried params body)) :
      (code c (.abs a .curried params body)).Emits S
        ((Term.abs a .curried params body).loopSizes (some c.name)) := by
    rw [loopSizes_abs]
    exact emits_curriedCode (h.emits S (hS.child (List.mem_singleton.2 rfl)))
  refine ⟨hplain, ?_, ?_⟩
  · intro s S hs hS
    have hzero := hs.calls.mentions_eq_zero hs.pos rfl (fun _ => rfl) (fun _ => rfl)
    rw [JumpsFully, hzero]
    exact (hplain (s :: S) (.cons hzero hS)).block .looping
  · rintro _ _ _ heq s S hs hS
    cases heq
    exact h.jumps s S hs hS

/-- The `body` of a function of all arguments at once is in no tail position. -/
theorem lowered_arrow : Lowered c (.abs a .uncurried params body) := by
  refine .of_plain (fun S hS => ?_) rfl (fun _ => rfl) (fun _ => rfl) rfl
  rw [loopSizes_abs]
  exact emits_arrowCode ((h.emits S (hS.child (List.mem_singleton.2 rfl))).block .plain)

/-- Nor is that of a function that runs an effect. -/
theorem lowered_effectArrow : Lowered c (.abs a .effectful params body) := by
  refine .of_plain (fun S hS => ?_) rfl (fun _ => rfl) (fun _ => rfl) rfl
  rw [loopSizes_abs]
  exact emits_arrowCode ((h.emits S (hS.child (List.mem_singleton.2 rfl))).block .effectful)

end

/-! ## Bindings and effects -/

/-- `letIn` keeps tail position in its `body`. -/
theorem lowered_letIn {a : Analysis} {b : Binder} {value body : Analyzed} (hvalue : Lowered c value)
    (hbody : Lowered c body) : Lowered c (.letIn a b value body) := by
  have hv : value ∈ (Term.letIn a b value body).children := by simp [children]
  have hb : body ∈ (Term.letIn a b value body).children := by simp [children]
  have hsizes : (Term.letIn a b value body).loopSizes (some c.name) =
      value.loopSizes (some c.name) ++ body.loopSizes (some c.name) := by
    rw [loopSizes_eq]
    simp [loopSize?, children]
  refine ⟨?_, ?_, forall_of_body? rfl⟩
  · intro S hS
    rw [hsizes]
    exact emits_letCode (hvalue.emits S (hS.child hv)) (hbody.emits S (hS.child hb))
  · intro s S hs hS
    obtain ⟨hzero, hcalls⟩ := hs.calls.letIn
    have hmentions : (Term.letIn a b value body).mentions (some c.name) (s.members.map Prod.fst) =
        body.mentions (some c.name) (s.members.map Prod.fst) := by
      rw [mentions_eq, if_neg (by simp [refIn?, Candidates.ref?, ref?])]
      simp [children, hzero]
    rw [JumpsFully, hsizes, hmentions]
    exact calmStep_letBlock (hvalue.emits (s :: S) (.cons hzero (hS.child hv)))
      (hbody.jumps s S (hs.of_calls hcalls) (hS.child hb))

/-- `bindEffect` keeps tail position in neither part. -/
theorem lowered_bindEffect {a : Analysis} {b : Binder} {effect body : Analyzed}
    (heffect : Lowered c effect) (hbody : Lowered c body) :
    Lowered c (.bindEffect a b effect body) := by
  refine .of_plain (fun S hS => ?_) rfl (fun _ => rfl) (fun _ => rfl) rfl
  have := emits_bindCode (b := b) (heffect.emits S (hS.child (by simp [children])))
    (hbody.emits S (hS.child (by simp [children])))
  rw [code, loopSizes_eq]
  simpa [loopSize?, children] using this

/-- Nor does `pureEffect`. -/
theorem lowered_pureEffect {a : Analysis} {value : Analyzed} (h : Lowered c value) :
    Lowered c (.pureEffect a value) := by
  refine .of_plain (fun S hS => ?_) rfl (fun _ => rfl) (fun _ => rfl) rfl
  have := emits_pureCode (h.emits S (hS.child (by simp [children])))
  rw [code, loopSizes_eq]
  simpa [loopSize?, children] using this

/-- Nor does `deferEffect`. -/
theorem lowered_deferEffect {a : Analysis} {effect : Analyzed} (h : Lowered c effect) :
    Lowered c (.deferEffect a effect) := by
  refine .of_plain (fun S hS => ?_) rfl (fun _ => rfl) (fun _ => rfl) rfl
  have := emits_deferCode (h.emits S (hS.child (by simp [children])))
  rw [code, loopSizes_eq]
  simpa [loopSize?, children] using this

/-! ## Branches -/

/-- `branch` keeps tail position in the bodies of its arms and in its default. -/
theorem lowered_branch {a : Analysis} {arms : List (Analyzed × Analyzed)} {default : Analyzed}
    (hcond : ∀ arm ∈ arms, Lowered c arm.1) (hbody : ∀ arm ∈ arms, Lowered c arm.2)
    (hdefault : Lowered c default) : Lowered c (.branch a arms default) := by
  have hmem {arm : Analyzed × Analyzed} (harm : arm ∈ arms) (u : Analyzed)
      (hu : u ∈ [arm.1, arm.2]) : u ∈ (Term.branch a arms default).children := by
    rw [children]
    exact List.mem_append_left _ (List.mem_flatMap.2 ⟨arm, harm, hu⟩)
  have hd : default ∈ (Term.branch a arms default).children := by simp [children]
  have hsizes : (Term.branch a arms default).loopSizes (some c.name) =
      (arms.flatMap fun arm =>
        arm.1.loopSizes (some c.name) ++ arm.2.loopSizes (some c.name)) ++
          default.loopSizes (some c.name) := by
    rw [loopSizes_eq]
    simp [loopSize?, children, List.flatMap_assoc]
  refine ⟨?_, ?_, forall_of_body? rfl⟩
  · intro S hS
    rw [hsizes, code, armCodes_eq_map]
    exact emits_branchCode
      (fun arm harm => (hcond arm harm).emits S (hS.child (hmem harm _ (by simp))))
      (fun arm harm => (hbody arm harm).emits S (hS.child (hmem harm _ (by simp))))
      (hdefault.emits S (hS.child hd))
  · intro s S hs hS
    obtain ⟨hzero, hcalls, hcalls'⟩ := hs.calls.branch
    -- members are called in the bodies only, since conditions are in no tail position
    have hmentions : (Term.branch a arms default).mentions (some c.name) (s.members.map Prod.fst) =
        (arms.map fun arm => arm.2.mentions (some c.name) (s.members.map Prod.fst)).sum +
          default.mentions (some c.name) (s.members.map Prod.fst) := by
      have harms : ((arms.flatMap fun arm => [arm.1, arm.2]).map
          (mentions (some c.name) (s.members.map Prod.fst))).sum =
            (arms.map fun arm => arm.2.mentions (some c.name) (s.members.map Prod.fst)).sum := by
        clear hs hS hbody hcond hdefault hmem hd hsizes hcalls
        induction arms with
        | nil => rfl
        | cons arm rest ih =>
          have hrest := ih fun arm' harm' => hzero arm' (List.mem_cons_of_mem _ harm')
          simp [hzero arm (List.mem_cons_self ..), hrest]
      rw [mentions_eq, if_neg (by simp [refIn?, Candidates.ref?, ref?]), children, List.map_append,
        List.sum_append, harms]
      simp
    rw [JumpsFully, hsizes, hmentions, code, armCodes_eq_map]
    refine calmStep_branchBlock _ ?_ ?_ ?_
    · exact fun arm harm => (hcond arm harm).emits (s :: S)
        (.cons (hzero arm harm) (hS.child (hmem harm _ (by simp))))
    · exact fun arm harm => (hbody arm harm).jumps s S (hs.of_calls (hcalls arm harm))
        (hS.child (hmem harm _ (by simp)))
    · exact hdefault.jumps s S (hs.of_calls hcalls') (hS.child hd)

/-! ## Recursive groups -/

/-- The loop of a group `ts` that is called in the way of a loop has a jump for each reference to a
member. -/
theorem calmStep_loopDeclarations_memberOf {S : List LoopScope} {idents : List String}
    {refs : List Ref} {ts : List Analyzed} (dispatcher : Option String)
    (hidents : idents.length = ts.length) (hrefs : refs.length = ts.length)
    (hloop : LoopsFully (some c.name) refs ts) (hts : ∀ t ∈ ts, Lowered c t)
    (hS : ∀ t ∈ ts, Silent (some c.name) S t) :
    CalmStep S (loopDeclarations (((idents.zip refs).zip ts).map (memberOf c)) dispatcher) fun b =>
      jumpCounts b = groupMentions (some c.name) refs ts :: ts.flatMap (loopSizes (some c.name)) ∧
        jumpsIn b = 0 := by
  have hsnd : ((idents.zip refs).zip ts).map Prod.snd = ts := List.map_snd_zip (by simp; omega)
  have hmembers := members_memberOf (c := c) hidents hrefs
  have hfst : (refs.zip (ts.map arity)).map Prod.fst = refs :=
    List.map_fst_zip (Nat.le_of_eq (by rw [List.length_map, hrefs]))
  have hbodies := bodies_eq_map hloop.functions
  -- inside of the loop the body of a member jumps for each of its calls
  have hjump : BodiesJump S ((idents.zip refs).zip ts) (memberOf c)
      (fun p => p.2.loopSizes (some c.name)) (fun p => p.2.inner.mentions (some c.name) refs) := by
    intro s hs hslots p hp
    have hp := (List.of_mem_zip hp).2
    obtain ⟨a, params, body, hfun⟩ := hloop.functions p.2 hp
    have hmem : body ∈ bodies ts := by
      rw [hbodies]
      exact List.mem_map.2 ⟨p.2, hp, by rw [hfun]; rfl⟩
    have hchild : body ∈ p.2.children := by
      rw [hfun]
      exact List.mem_singleton.2 rfl
    rw [hmembers] at hs
    have hbody := (hts p.2 hp).function a params body hfun s S
      ⟨hs ▸ hloop.pos, hslots, hs ▸ hloop.calls body hmem⟩ ((hS p.2 hp).child hchild)
    rw [JumpsFully, hs, hfst] at hbody
    have hsizes : p.2.loopSizes (some c.name) = body.loopSizes (some c.name) := by
      rw [hfun, loopSizes_eq]
      simp [loopSize?, children]
    simp only [hsizes, memberOf]
    rw [hfun]
    exact hbody
  refine (calmStep_loopDeclarations hjump).mono fun b hb => ⟨hb.1.trans ?_, hb.2⟩
  -- the jumps of all members together are the calls in their bodies
  have hsum : ((idents.zip refs).zip ts).map (fun p => p.2.inner.mentions (some c.name) refs) =
      ts.map fun t => t.inner.mentions (some c.name) refs := by
    conv => rhs; rw [← hsnd, List.map_map]
    rfl
  have hflat : ((idents.zip refs).zip ts).flatMap (fun p => p.2.loopSizes (some c.name)) =
      ts.flatMap (loopSizes (some c.name)) := by
    conv => rhs; rw [← hsnd, List.flatMap_map]
  rw [hsum, hflat, groupMentions, hbodies, List.map_map]
  rfl

/-- `groupDeclarations`: a recursive group, which may be a loop. -/
theorem calmStep_groupDeclarations {S : List LoopScope} {a : Analysis} {level : UInt32}
    {bindings : List (String × Analyzed)} (body : Analyzed) (functions : Bool)
    (hc : c.loops = true)
    (hloop : a.isLoop = true →
      LoopsFully (some c.name) (groupRefs level bindings) (bindings.map Prod.snd))
    (hts : ∀ t ∈ bindings.map Prod.snd, Lowered c t)
    (hS : ∀ t ∈ bindings.map Prod.snd, Silent (some c.name) S t) :
    CalmStep S (groupDeclarations (a.isLoop && c.loops) functions (groupRefs level bindings)
        (bindings.map fun b => ⟨some b.1, level⟩) (bindingCodes c bindings)) fun b =>
      jumpCounts b = ((Term.letRec a level bindings body).loopSize? (some c.name)).toList ++
          (bindings.map Prod.snd).flatMap (loopSizes (some c.name)) ∧ jumpsIn b = 0 := by
  rw [bindingCodes_eq, hc, Bool.and_true]
  refine (calmStep_bindNames _).bind fun idents hidents => ?_
  rw [List.length_map] at hidents
  cases hflag : a.isLoop with
  | true =>
    have hfully := hloop hflag
    -- in a flagged group all members are functions, so the group is written as a loop
    rw [loopMembers?_of_functions hfully.functions]
    have := calmStep_loopDeclarations_memberOf none
      (hidents.trans (by rw [List.length_map])) (by simp [groupRefs]) hfully hts hS
    simpa [loopSize?, hflag] using this
  | false =>
    have hemits : ∀ b ∈ idents.zip (bindings.map Prod.snd),
        (code c b.2).Emits S (b.2.loopSizes (some c.name)) := fun b hb =>
      (hts b.2 (List.of_mem_zip hb).2).emits S (hS b.2 (List.of_mem_zip hb).2)
    have hzip : idents.zip ((bindings.map Prod.snd).map (code c)) =
        (idents.zip (bindings.map Prod.snd)).map fun b => (b.1, code c b.2) := List.zip_map_right ..
    have hsnd : (idents.zip (bindings.map Prod.snd)).map Prod.snd = bindings.map Prod.snd :=
      List.map_snd_zip (Nat.le_of_eq (by rw [List.length_map, hidents]))
    have := calmStep_recursiveDeclarations functions
      (idents.zip (bindings.map Prod.snd)) hemits
    rw [← hzip, hsnd] at this
    simpa [loopSize?, hflag] using this

/-- `letRec` becomes the loop of its bindings if it is flagged. Tail position is kept in the body of
such a group only. -/
theorem lowered_letRec {a : Analysis} {level : UInt32} {bindings : List (String × Analyzed)}
    {body : Analyzed} (hc : c.loops = true)
    (hloop : a.isLoop = true →
      LoopsFully (some c.name) (groupRefs level bindings) (bindings.map Prod.snd))
    (hts : ∀ t ∈ bindings.map Prod.snd, Lowered c t) (hbody : Lowered c body) :
    Lowered c (.letRec a level bindings body) := by
  have hb : body ∈ (Term.letRec a level bindings body).children := by simp [children]
  have ht (t : Analyzed) (h : t ∈ bindings.map Prod.snd) :
      t ∈ (Term.letRec a level bindings body).children := List.mem_append_left _ h
  have hsizes : (Term.letRec a level bindings body).loopSizes (some c.name) =
      (((Term.letRec a level bindings body).loopSize? (some c.name)).toList ++
        (bindings.map Prod.snd).flatMap (loopSizes (some c.name))) ++
          body.loopSizes (some c.name) := by
    rw [loopSizes_eq, children, List.flatMap_append, List.append_assoc]
    simp
  have hblock {S : List LoopScope} {mode : Mode} {n : Nat}
      (hS : ∀ t ∈ bindings.map Prod.snd, Silent (some c.name) S t)
      (hbody : CalmStep S ((code c body).block mode) fun b =>
        jumpCounts b = body.loopSizes (some c.name) ∧ jumpsIn b = n) :
      CalmStep S ((code c (.letRec a level bindings body)).block mode) fun b =>
        jumpCounts b = (Term.letRec a level bindings body).loopSizes (some c.name) ∧
          jumpsIn b = n := by
    rw [hsizes]
    refine (calmStep_groupDeclarations body _ hc hloop hts hS).bind
      fun declarations hdeclarations => hbody.map fun rest hrest => ?_
    simp only [jumpCounts_eq, jumpsIn_eq] at hdeclarations hrest
    simp [hdeclarations, hrest]
  refine ⟨?_, ?_, forall_of_body? rfl⟩
  · intro S hS
    exact emits_ofBlock fun mode => hblock (fun t h => hS.child (ht t h))
      ((hbody.emits S (hS.child hb)).block mode)
  · intro s S hs hS
    obtain ⟨hzero, hloops, hsilent⟩ := hs.calls.letRec
    have hmentions : (Term.letRec a level bindings body).mentions (some c.name)
        (s.members.map Prod.fst) = body.mentions (some c.name) (s.members.map Prod.fst) := by
      have hrest : ((bindings.map Prod.snd).map
          (mentions (some c.name) (s.members.map Prod.fst))).sum = 0 := by
        rw [List.map_congr_left hzero, List.map_const', List.sum_replicate_nat, Nat.mul_zero]
      rw [mentions_eq, if_neg (by simp [refIn?, Candidates.ref?, ref?]), children, List.map_append,
        List.sum_append, hrest]
      simp
    rw [JumpsFully, hmentions]
    refine hblock (fun t h => .cons (hzero t h) (hS.child (ht t h))) ?_
    -- the body stays in tail position only if the group is a loop
    cases hflag : a.isLoop with
    | true =>
      exact hbody.jumps s S (hs.of_calls (hloops hflag)) (hS.child hb)
    | false =>
      rw [hsilent hflag]
      exact (hbody.emits (s :: S) (.cons (hsilent hflag) (hS.child hb))).block .looping

/-! ## Terms -/

/-- If the groups that are flagged in `t` are called in the way of a loop, every reference to a
member of a loop becomes a jump. By induction on `t`. -/
theorem lowered_code (hc : c.loops = true) (t : Analyzed) (hf : t.Flagged (some c.name)) :
    Lowered c t := by
  induction t using children_induction with
  | step t ih =>
  have hchild (s : Analyzed) (hs : s ∈ t.children) : Lowered c s := ih s hs (hf.child hs)
  cases t with
  | global => exact lowered_global
  | bound => exact lowered_bound
  | lit => exact lowered_lit
  | constructor => exact lowered_constructor
  | undefined => exact lowered_undefined
  | fail => exact lowered_fail
  | array => exact lowered_array hchild
  | record => exact lowered_record hchild
  | construct => exact lowered_construct hchild
  | update a subject fields =>
    exact lowered_update (fun s hs => hchild s (List.mem_cons_of_mem _ hs))
      (hchild subject (List.mem_cons_self ..))
  | access a subject => exact lowered_access (hchild subject (List.mem_singleton.2 rfl))
  | test a subject => exact lowered_test (hchild subject (List.mem_singleton.2 rfl))
  | unary a op operand => exact lowered_unary (hchild operand (List.mem_singleton.2 rfl))
  | binary a op left right =>
    exact lowered_binary (hchild left (by simp [children])) (hchild right (by simp [children]))
  | app a calling head args =>
    have hhead := hchild head (List.mem_cons_self ..)
    have hargs (u : Analyzed) (hu : u ∈ args) := hchild u (List.mem_cons_of_mem _ hu)
    cases calling with
    | curried => exact lowered_app hhead hargs
    | uncurried => exact lowered_appAll hhead hargs
    | effectful => exact lowered_appEffect hhead hargs
  | abs a calling params body =>
    have hbody := hchild body (List.mem_singleton.2 rfl)
    cases calling with
    | curried => exact lowered_curried hbody
    | uncurried => exact lowered_arrow hbody
    | effectful => exact lowered_effectArrow hbody
  | letIn a b value body =>
    exact lowered_letIn (hchild value (by simp [children])) (hchild body (by simp [children]))
  | letRec a level bindings body =>
    refine lowered_letRec hc (hf a level bindings body (mem_subterms_iff.2 (.inl rfl))) ?_
      (hchild body (by simp [children]))
    exact fun s hs => hchild s (List.mem_append_left _ hs)
  | bindEffect a b effect body =>
    exact lowered_bindEffect (hchild effect (by simp [children]))
      (hchild body (by simp [children]))
  | pureEffect a value => exact lowered_pureEffect (hchild value (List.mem_singleton.2 rfl))
  | deferEffect a effect => exact lowered_deferEffect (hchild effect (List.mem_singleton.2 rfl))
  | branch a arms default =>
    have harm (arm : Analyzed × Analyzed) (h : arm ∈ arms) (s : Analyzed)
        (hs : s ∈ [arm.1, arm.2]) : Lowered c s :=
      hchild s (List.mem_append_left _ (List.mem_flatMap.2 ⟨arm, h, hs⟩))
    exact lowered_branch (fun arm h => harm arm h _ (by simp))
      (fun arm h => harm arm h _ (by simp)) (hchild default (by simp [children]))

end TailLoop.Lower
