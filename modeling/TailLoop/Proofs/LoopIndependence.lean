import TailLoop.Proofs.LoopAgreement

/-!
# Loops do not refer to their members

What is written for a loop does not depend on how a reference to one of its members would be
written: no such reference is written at all, since all of them become jumps. This is stated for
two runs of the lowering that agree except on the names of the members.

* `Context.AgreeOff`, `Progress.AgreeOff`: agreement except on some references.
* `alike_code`: a term that mentions none of them is lowered alike.
* `alikeIn_loopDeclarations`: so is a group that is called in the way of a loop.
-/

namespace TailLoop.Lower

open Script Lowering Term

variable {α β : Type}

/-- Two modules agree on which names are provided from outside, except for the names of `X`. -/
structure Context.AgreeOff (X : List Ref) (c c' : Context) : Prop where
  /-- The modules have the same name. -/
  name : c.name = c'.name
  /-- Loops are written in both or in none. -/
  loops : c.loops = c'.loops
  /-- Other names come from the same place. -/
  isForeign : ∀ ident, .global ⟨some c.name, ident⟩ ∉ X → c.isForeign ident = c'.isForeign ident

/-- Two states of the lowering agree on the names of binders, except for those of `X`, and on
everything that decides what is written next. -/
structure Progress.AgreeOff (X : List Ref) (p p' : Progress) : Prop where
  /-- The same names are taken. -/
  counters : p.env.counters = p'.env.counters
  /-- The same loops are being written. -/
  scopes : p.env.scopes = p'.env.scopes
  /-- Other binders have the same names. -/
  names : ∀ b, .bound b ∉ X → p.env.names.get? b = p'.env.names.get? b

/-- In the loops `S`, the two steps give the same result from states that agree off `X`. They
restore the loops, and the states agree again. -/
def AlikeIn (X : List Ref) (S : List LoopScope) (m m' : Lowering α) : Prop :=
  ∀ p p', p.env.scopes = S → p.AgreeOff X p' →
    (m p).1 = (m' p').1 ∧ (m p).2.env.scopes = S ∧ (m p).2.AgreeOff X (m' p').2

variable {X : List Ref} {S : List LoopScope}

/-! ## Steps -/

/-- `pure a` gives the same in both runs. -/
theorem AlikeIn.pure (a : α) : AlikeIn X S (pure a) (pure a) := fun _ _ hp h => ⟨rfl, hp, h⟩

/-- `m` and `m'` give the same `a`, so it is enough that `k a` and `k' a` are alike. -/
theorem AlikeIn.bind {m m' : Lowering α} {k k' : α → Lowering β} (hm : AlikeIn X S m m')
    (hk : ∀ a, AlikeIn X S (k a) (k' a)) : AlikeIn X S (m >>= k) (m' >>= k') := by
  intro p p' hp h
  obtain ⟨hresult, hscopes, hagree⟩ := hm p p' hp h
  have hnext := hk (m p).1 (m p).2 (m' p').2 hscopes hagree
  have hsame : k' (m p).1 (m' p').2 = k' (m' p').1 (m' p').2 := by rw [hresult]
  rw [hsame] at hnext
  exact hnext

/-- `f` may wrap the results. -/
theorem AlikeIn.map {m m' : Lowering α} (f : α → β) (hm : AlikeIn X S m m') :
    AlikeIn X S (do return f (← m)) (do return f (← m')) := hm.bind fun a => .pure (f a)

/-- `report` adds a report. -/
theorem alikeIn_report (detail : Detail) (message : String) :
    AlikeIn X S (report detail message) (report detail message) :=
  fun _ _ hp h => ⟨rfl, hp, ⟨h.counters, h.scopes, h.names⟩⟩

/-- `clash` notes a call with the wrong number of arguments. -/
theorem alikeIn_clash (x : ArityClash) : AlikeIn X S (clash x) (clash x) :=
  fun _ _ hp h => ⟨rfl, hp, ⟨h.counters, h.scopes, h.names⟩⟩

/-- `Env.fresh` depends on the taken names only. -/
theorem Env.fresh_congr {e e' : Env} (h : e.counters = e'.counters) (base : String) :
    (e.fresh base).1 = (e'.fresh base).1 ∧
      (e.fresh base).2.counters = (e'.fresh base).2.counters := by
  have htaken : e.isTaken = e'.isTaken := by
    funext name
    rw [isTaken, isTaken, h]
  simp [fresh, h, htaken]

/-- `freshName`: a name that is not taken. -/
theorem alikeIn_freshName (base : String) : AlikeIn X S (freshName base) (freshName base) := by
  intro p p' hp h
  obtain ⟨hname, hcounters⟩ := Env.fresh_congr h.counters base
  exact ⟨hname, hp, ⟨hcounters, h.scopes, h.names⟩⟩

/-- `bindName`: a name for a binder. -/
theorem alikeIn_bindName (b : Binder) : AlikeIn X S (bindName b) (bindName b) := by
  intro p p' hp h
  -- the name is fresh or given by the level; then it is entered in both tables
  have hinsert (name : String) (x : Binder) (hx : .bound x ∉ X) :
      (p.env.names.insert b name).get? x = (p'.env.names.insert b name).get? x := by
    rw [Table.insert, Table.insert, Table.get?_alter, Table.get?_alter, h.names x hx]
  obtain ⟨name, level⟩ := b
  cases name with
  | none => exact ⟨rfl, hp, ⟨h.counters, h.scopes, hinsert _⟩⟩
  | some name =>
    obtain ⟨hname, hcounters⟩ := Env.fresh_congr h.counters name
    refine ⟨hname, hp, ⟨hcounters, h.scopes, ?_⟩⟩
    intro x hx
    have hentry : (p.env.names.insert ⟨some name, level⟩ (p.env.fresh name).1).get? x =
        (p'.env.names.insert ⟨some name, level⟩ (p'.env.fresh name).1).get? x := by
      rw [hname]
      exact hinsert _ x hx
    exact hentry

/-- The name of a binder outside `X` is alike. -/
theorem alikeIn_nameOf {b : Binder} (hb : .bound b ∉ X) : AlikeIn X S (nameOf b) (nameOf b) := by
  intro p p' hp h
  refine ⟨?_, hp, h⟩
  have hname : p.env.lookup b = p'.env.lookup b := by rw [Env.lookup, Env.lookup, h.names b hb]
  exact hname

/-- `jumpTo?` looks into the loops only, and these are the same. -/
theorem alikeIn_jumpTo? (r : Ref) : AlikeIn X S (jumpTo? r) (jumpTo? r) := by
  intro p p' hp h
  refine ⟨?_, hp, h⟩
  have hjump : p.env.findJump? r = p'.env.findJump? r := by
    rw [Env.findJump?, Env.findJump?, h.scopes]
  exact hjump

/-- `inLoop`: a step inside a loop. -/
theorem alikeIn_inLoop {s : LoopScope} {m m' : Lowering α} (hm : AlikeIn X (s :: S) m m') :
    AlikeIn X S (inLoop s m) (inLoop s m') := by
  intro p p' hp h
  -- the states in which the steps run
  let inner (p : Progress) : Progress :=
    { p with
      env := p.env.push s
      reports := ⟨.trace, .lowering, "enter loop " ++ s.label⟩ :: p.reports }
  have hscopes : (inner p).env.scopes = s :: S := congrArg (s :: ·) hp
  have hagree : (inner p).AgreeOff X (inner p') :=
    ⟨h.counters, congrArg (s :: ·) h.scopes, h.names⟩
  obtain ⟨hresult, hscopes', hagree'⟩ := hm _ _ hscopes hagree
  have hdrop (depth : Nat) (hdepth : depth = S.length) :
      ((m (inner p)).2.env.truncate depth).scopes = S := by
    rw [Env.truncate, hscopes', hdepth, List.length_cons, Nat.add_sub_cancel_left, List.drop_one,
      List.tail_cons]
  refine ⟨hresult, hdrop p.env.depth (by rw [Env.depth, hp]), ⟨hagree'.counters, ?_, hagree'.names⟩⟩
  have hsame : ((m (inner p)).2.env.truncate p.env.depth).scopes =
      ((m' (inner p')).2.env.truncate p'.env.depth).scopes := by
    rw [Env.truncate, Env.truncate, Env.depth, Env.depth, hagree'.scopes, h.scopes]
  exact hsame

/-- `all`: steps one after the other. -/
theorem alikeIn_all {ι : Type} {xs : List ι} {m m' : ι → Lowering α}
    (h : ∀ x ∈ xs, AlikeIn X S (m x) (m' x)) :
    AlikeIn X S (all (xs.map m)) (all (xs.map m')) := by
  induction xs with
  | nil => exact .pure []
  | cons x rest ih =>
    refine (h x (List.mem_cons_self ..)).bind fun a => ?_
    exact (ih fun y hy => h y (List.mem_cons_of_mem _ hy)).map _

/-- `freshNames`: a name for each base. -/
theorem alikeIn_freshNames (bases : List String) :
    AlikeIn X S (freshNames bases) (freshNames bases) := by
  induction bases with
  | nil => exact .pure []
  | cons base rest ih => exact (alikeIn_freshName base).bind fun name => ih.map _

/-- `bindNames`: names for binders. -/
theorem alikeIn_bindNames (bs : List Binder) : AlikeIn X S (bindNames bs) (bindNames bs) := by
  induction bs with
  | nil => exact .pure []
  | cons b rest ih => exact (alikeIn_bindName b).bind fun name => ih.map _

/-! ## Ways to lower a term -/

/-- All ways to lower by `K` and `K'` are alike, whatever loops are being written. -/
structure Code.Alike (X : List Ref) (K K' : Code) : Prop where
  /-- The expressions are alike. -/
  value : ∀ S, AlikeIn X S K.value K'.value
  /-- The statements are alike. -/
  returned : ∀ S, AlikeIn X S K.returned K'.returned
  /-- The effects are alike. -/
  run : ∀ S, AlikeIn X S K.run K'.run
  /-- The blocks are alike. -/
  block : ∀ mode S, AlikeIn X S (K.block mode) (K'.block mode)

section Combinators

variable {value value' : Lowering Script.Expr} {K K' L L' : Code} {ι : Type} {xs : List ι}
  {m m' : ι → Lowering Script.Expr}

/-- `Code.ofReturn`: a value with a returning statement of its own. -/
theorem alike_ofReturn {returned returned' : Lowering Stmt} (hv : ∀ S, AlikeIn X S value value')
    (hr : ∀ S, AlikeIn X S returned returned') :
    (Code.ofReturn value returned).Alike X (Code.ofReturn value' returned') where
  value := hv
  returned := hr
  run S := (hv S).map _
  block mode S := by
    simp only [Code.ofReturn]
    split
    · exact (hv S).map _
    · exact (hr S).map _

/-- `Code.ofValue`: a term that is an expression. -/
theorem alike_ofValue (hv : ∀ S, AlikeIn X S value value') :
    (Code.ofValue value).Alike X (Code.ofValue value') := alike_ofReturn hv fun S => (hv S).map _

/-- `Code.ofObject`: a term that is an object literal. -/
theorem alike_ofObject (hv : ∀ S, AlikeIn X S value value') :
    (Code.ofObject value).Alike X (Code.ofObject value') := alike_ofReturn hv fun S => (hv S).map _

/-- `Code.ofBlock`: a term that is written as statements. -/
theorem alike_ofBlock {block block' : Mode → Lowering (List Stmt)}
    (h : ∀ mode S, AlikeIn X S (block mode) (block' mode)) :
    (Code.ofBlock block).Alike X (Code.ofBlock block') where
  value S := (h .plain S).map _
  returned S := (h .plain S).map _
  run S := (h .plain S).map _
  block := h

/-- `Code.ofEffect`: an effect, which is a function where it is not run. -/
theorem alike_ofEffect {body body' : Lowering (List Stmt)} {run run' : Lowering Script.Expr}
    {block block' : Mode → Lowering (List Stmt)} (hbody : ∀ S, AlikeIn X S body body')
    (hrun : ∀ S, AlikeIn X S run run') (hblock : ∀ mode S, AlikeIn X S (block mode) (block' mode)) :
    (Code.ofEffect body run block).Alike X (Code.ofEffect body' run' block') where
  value S := (hbody S).map _
  returned S := (hbody S).map _
  run := hrun
  block mode S := by
    simp only [Code.ofEffect]
    split
    · exact hblock mode S
    · exact (hbody S).map _

/-- `callEach`: a call with arguments one by one. -/
theorem alikeIn_callEach (hf : AlikeIn X S value value')
    (hxs : ∀ x ∈ xs, AlikeIn X S (m x) (m' x)) :
    AlikeIn X S (callEach value (xs.map m)) (callEach value' (xs.map m')) := by
  induction xs generalizing value value' with
  | nil => exact hf
  | cons x rest ih =>
    refine ih (hf.bind fun f => (hxs x (List.mem_cons_self ..)).map _) ?_
    exact fun y hy => hxs y (List.mem_cons_of_mem _ hy)

/-- `callAll`: a call with all arguments. -/
theorem alikeIn_callAll (hf : AlikeIn X S value value')
    (hxs : ∀ x ∈ xs, AlikeIn X S (m x) (m' x)) :
    AlikeIn X S (callAll value (xs.map m)) (callAll value' (xs.map m')) :=
  hf.bind fun _ => (alikeIn_all hxs).map _

/-- `jump?`: what a call becomes in a loop. -/
theorem alikeIn_jump? (r? : Option Ref) (hxs : ∀ x ∈ xs, AlikeIn X S (m x) (m' x)) :
    AlikeIn X S (jump? r? (xs.map m)) (jump? r? (xs.map m')) := by
  cases r? with
  | none => exact .pure none
  | some r =>
    refine (alikeIn_jumpTo? r).bind fun j? => ?_
    cases j? with
    | none => exact .pure none
    | some j =>
      simp only [List.length_map]
      split
      · exact (alikeIn_report _ _).bind fun _ => .pure none
      · split
        · exact (alikeIn_clash _).bind fun _ => .pure none
        · exact (alikeIn_all hxs).map _

/-- `appCode`: an application to arguments one by one, which a loop can make a jump. -/
theorem alike_appCode (r? : Option Ref) (hf : ∀ S, AlikeIn X S value value')
    (hxs : ∀ x ∈ xs, ∀ S, AlikeIn X S (m x) (m' x)) :
    (appCode r? value (xs.map m)).Alike X (appCode r? value' (xs.map m')) := by
  have hplain := alike_ofValue fun S => alikeIn_callEach (hf S) fun x hx => hxs x hx S
  refine ⟨hplain.value, hplain.returned, hplain.run, fun mode S => ?_⟩
  simp only [appCode]
  split
  · refine (alikeIn_jump? r? fun x hx => hxs x hx S).bind fun stmts? => ?_
    cases stmts? with
    | none => exact (hplain.returned S).map _
    | some stmts => exact .pure stmts
  · exact hplain.block mode S

/-- `curriedCode`: a function that takes its parameters one by one. -/
theorem alike_curriedCode {params : List Binder} (h : K.Alike X K') :
    (curriedCode params K).Alike X (curriedCode params K') := by
  have hvalue := alike_ofValue fun S =>
    (alikeIn_bindNames params).bind fun names => (h.block .plain S).map (Script.Expr.curried names)
  exact ⟨hvalue.value, hvalue.returned, hvalue.run, hvalue.block⟩

/-- `arrowCode`: a function that takes its parameters at once. -/
theorem alike_arrowCode {params : List Binder} {body body' : Lowering (List Stmt)}
    (h : ∀ S, AlikeIn X S body body') :
    (arrowCode params body).Alike X (arrowCode params body') :=
  alike_ofValue fun S => (alikeIn_bindNames params).bind fun _ => (h S).map _

/-- `effectAppCode`: an application that is an effect. -/
theorem alike_effectAppCode (hf : ∀ S, AlikeIn X S value value')
    (hxs : ∀ x ∈ xs, ∀ S, AlikeIn X S (m x) (m' x)) :
    (effectAppCode value (xs.map m)).Alike X (effectAppCode value' (xs.map m')) := by
  have hrun (S : List LoopScope) := alikeIn_callAll (hf S) fun x hx => hxs x hx S
  exact alike_ofEffect (fun S => (hrun S).map _) hrun fun _ S => (hrun S).map _

/-- `letBlock`: a binding in front of the block of its body. -/
theorem alikeIn_letBlock {b : Binder} {mode : Mode} (hvalue : K.Alike X K')
    (hbody : AlikeIn X S (L.block mode) (L'.block mode)) :
    AlikeIn X S ((letCode b K L).block mode) ((letCode b K' L').block mode) :=
  (hvalue.value S).bind fun _ => (alikeIn_bindName b).bind fun _ => hbody.map _

/-- `bindStmt`: an effect that is run, whose result is bound if the binder has a name. -/
theorem alikeIn_bindStmt (b : Binder) (e : Script.Expr) :
    AlikeIn X S (bindStmt b e) (bindStmt b e) := by
  unfold bindStmt
  split
  · exact (alikeIn_bindName b).map _
  · exact .pure _

/-- `bindCode`: an effect that goes on with the result of another. -/
theorem alike_bindCode {b : Binder} (heffect : K.Alike X K') (hbody : L.Alike X L') :
    (bindCode b K L).Alike X (bindCode b K' L') := by
  have hblock (mode : Mode) (S : List LoopScope) : AlikeIn X S (do
      let x ← K.run
      let s ← bindStmt b x
      let rest ← L.block mode
      return s :: rest) (do
      let x ← K'.run
      let s ← bindStmt b x
      let rest ← L'.block mode
      return s :: rest) :=
    (heffect.run S).bind fun x => (alikeIn_bindStmt b x).bind fun _ => (hbody.block mode S).map _
  exact alike_ofEffect (hblock .effectful) (fun S => (hblock .effectful S).map _) hblock

/-- `pureCode`: an effect that gives a value. -/
theorem alike_pureCode (h : K.Alike X K') : (pureCode K).Alike X (pureCode K') :=
  alike_ofEffect (fun S => (h.returned S).map _) h.value fun _ S => (h.returned S).map _

/-- `deferCode`: an effect that is built when it runs. -/
theorem alike_deferCode (h : K.Alike X K') : (deferCode K).Alike X (deferCode K') :=
  alike_ofEffect (h.block .effectful) (fun S => (h.block .effectful S).map _) h.block

variable {κ : Type} {arms : List κ} {cond cond' body body' : κ → Code}

/-- `armBlocks`: the arms of a branch with blocks of their own. -/
theorem alikeIn_armBlocks {mode : Mode} (hcond : ∀ a ∈ arms, (cond a).Alike X (cond' a))
    (hbody : ∀ a ∈ arms, AlikeIn X S ((body a).block mode) ((body' a).block mode)) :
    AlikeIn X S (armBlocks mode (arms.map fun a => (cond a, body a)))
      (armBlocks mode (arms.map fun a => (cond' a, body' a))) := by
  induction arms with
  | nil => exact .pure []
  | cons a rest ih =>
    refine ((hcond a (List.mem_cons_self ..)).value S).bind fun x => ?_
    refine (hbody a (List.mem_cons_self ..)).bind fun block => ?_
    exact (ih (fun a' ha' => hcond a' (List.mem_cons_of_mem _ ha'))
      (fun a' ha' => hbody a' (List.mem_cons_of_mem _ ha'))).map _

/-- `conditionalExpr`: the arms of a branch as a conditional expression. -/
theorem alikeIn_conditionalExpr (hcond : ∀ a ∈ arms, (cond a).Alike X (cond' a))
    (hbody : ∀ a ∈ arms, (body a).Alike X (body' a)) (hdefault : K.Alike X K') :
    AlikeIn X S (conditionalExpr (arms.map fun a => (cond a, body a)) K)
      (conditionalExpr (arms.map fun a => (cond' a, body' a)) K') := by
  induction arms with
  | nil => exact hdefault.value S
  | cons a rest ih =>
    refine ((hcond a (List.mem_cons_self ..)).value S).bind fun x => ?_
    refine ((hbody a (List.mem_cons_self ..)).value S).bind fun yes => ?_
    exact (ih (fun a' ha' => hcond a' (List.mem_cons_of_mem _ ha'))
      (fun a' ha' => hbody a' (List.mem_cons_of_mem _ ha'))).map _

/-- The block of a branch for `mode`. -/
theorem alikeIn_branchBlock (simple : Bool) (mode : Mode)
    (hcond : ∀ a ∈ arms, (cond a).Alike X (cond' a))
    (hbody : ∀ a ∈ arms, AlikeIn X S ((body a).block mode) ((body' a).block mode))
    (hdefault : AlikeIn X S (K.block mode) (K'.block mode)) :
    AlikeIn X S ((branchCode simple (arms.map fun a => (cond a, body a)) K).block mode)
      ((branchCode simple (arms.map fun a => (cond' a, body' a)) K').block mode) := by
  have hblock := (alikeIn_armBlocks hcond hbody).bind fun blocks =>
    hdefault.map ((if blocks.isEmpty then [] else [Stmt.chain blocks]) ++ ·)
  cases simple with
  | true => exact hblock
  | false => exact hblock

/-- `branchCode`: a branch, as an expression or as a chain of blocks. -/
theorem alike_branchCode (simple : Bool) (hcond : ∀ a ∈ arms, (cond a).Alike X (cond' a))
    (hbody : ∀ a ∈ arms, (body a).Alike X (body' a)) (hdefault : K.Alike X K') :
    (branchCode simple (arms.map fun a => (cond a, body a)) K).Alike X
      (branchCode simple (arms.map fun a => (cond' a, body' a)) K') := by
  have hblock (simple : Bool) (mode : Mode) (S : List LoopScope) :=
    alikeIn_branchBlock (S := S) simple mode hcond
      (fun a ha => (hbody a ha).block mode S) (hdefault.block mode S)
  cases simple with
  | true =>
    have hvalue := alike_ofValue fun S => alikeIn_conditionalExpr (S := S) hcond hbody hdefault
    exact ⟨hvalue.value, hvalue.returned, hvalue.run, hblock true⟩
  | false => exact alike_ofBlock (hblock false)

/-! ## Recursive groups -/

/-- `declareValues`: declarations of values, one by one. -/
theorem alikeIn_declareValues (declaration : String → Script.Expr → Stmt) {code code' : ι → Code}
    (bindings : List (String × ι)) (h : ∀ b ∈ bindings, (code b.2).Alike X (code' b.2)) :
    AlikeIn X S (declareValues declaration (bindings.map fun b => (b.1, code b.2)))
      (declareValues declaration (bindings.map fun b => (b.1, code' b.2))) := by
  induction bindings with
  | nil => exact .pure []
  | cons b rest ih =>
    refine ((h b (List.mem_cons_self ..)).value S).bind fun e => ?_
    exact (ih fun b' hb' => h b' (List.mem_cons_of_mem _ hb')).map _

/-- `recursiveDeclarations`: a group that is no loop. -/
theorem alikeIn_recursiveDeclarations (functions : Bool) {code code' : ι → Code}
    (bindings : List (String × ι)) (h : ∀ b ∈ bindings, (code b.2).Alike X (code' b.2)) :
    AlikeIn X S (recursiveDeclarations functions (bindings.map fun b => (b.1, code b.2)))
      (recursiveDeclarations functions (bindings.map fun b => (b.1, code' b.2))) := by
  unfold recursiveDeclarations
  split
  · exact alikeIn_declareValues .const bindings h
  · refine (alikeIn_declareValues .assign bindings h).bind fun assigns => ?_
    rw [List.map_map, List.map_map]
    exact .pure _

/-- `bindParams`: constants for parameters, with the values of the slots. -/
theorem alikeIn_bindParams (params : List Binder) (slots : List String) :
    AlikeIn X S (bindParams params slots) (bindParams params slots) := by
  fun_induction bindParams params slots with
  | case1 b params slot slots ih => exact (alikeIn_bindName b).bind fun name => ih.map _
  | case2 => exact .pure []

/-- Two members of a loop with the same name, reference and parameters, whose bodies are alike in
the loops `S`. -/
structure Member.AlikeIn (X : List Ref) (S : List LoopScope) (mem mem' : Member) : Prop where
  /-- The names are the same. -/
  ident : mem.ident = mem'.ident
  /-- The references are the same. -/
  ref : mem.ref = mem'.ref
  /-- The parameters are the same. -/
  params : mem.params = mem'.params
  /-- The bodies are alike. -/
  body : Lower.AlikeIn X S mem.body mem'.body

/-- `memberBody`: the body of a loop member after constants for its parameters. -/
theorem alikeIn_memberBody {mem mem' : Member} (slots : List String) (h : mem.AlikeIn X S mem') :
    AlikeIn X S (memberBody mem slots) (memberBody mem' slots) := by
  unfold memberBody
  rw [h.params]
  exact (alikeIn_bindParams mem'.params slots).bind fun binds => h.body.map _

variable {mk mk' : ι → Member}

/-- `dispatchBody`: the bodies of all members behind tests of the selector. -/
theorem alikeIn_dispatchBody {selector : String} {slots : List String} {i : Nat}
    (h : ∀ x ∈ xs, (mk x).AlikeIn X S (mk' x)) :
    AlikeIn X S (dispatchBody selector slots i (xs.map mk))
      (dispatchBody selector slots i (xs.map mk')) := by
  induction xs generalizing i with
  | nil => exact .pure []
  | cons x rest ih =>
    have hfirst := alikeIn_memberBody slots (h x (List.mem_cons_self ..))
    cases rest with
    | nil => exact hfirst
    | cons y rest =>
      refine hfirst.bind fun block => ?_
      exact (ih fun z hz => h z (List.mem_cons_of_mem _ hz)).map _

/-- `entries` depend on the names and the parameters of the members only. -/
theorem entries_congr (label : String) (i : Nat)
    (h : ∀ x ∈ xs, (mk x).ident = (mk' x).ident ∧ (mk x).params = (mk' x).params) :
    entries label i (xs.map mk) = entries label i (xs.map mk') := by
  induction xs generalizing i with
  | nil => rfl
  | cons x rest ih =>
    obtain ⟨hident, hparams⟩ := h x (List.mem_cons_self ..)
    have hrest := ih (i + 1) fun y hy => h y (List.mem_cons_of_mem _ hy)
    simp only [List.map_cons, entries, hident, hparams, hrest]

/-- `entries`: the functions that enter a shared loop. -/
theorem alikeIn_entries (label : String) (i : Nat) (members : List Member) :
    AlikeIn X S (entries label i members) (entries label i members) := by
  induction members generalizing i with
  | nil => exact .pure []
  | cons m rest ih => exact (alikeIn_freshNames _).bind fun copies => (ih (i + 1)).map _

/-- In every loop with these members, the members `mk` and `mk'` are alike. -/
def MembersAlike (X : List Ref) (S : List LoopScope) (xs : List ι) (mk mk' : ι → Member) : Prop :=
  ∀ s : LoopScope, s.members = xs.map (fun x => ((mk x).ref, (mk x).params.length)) →
    ∀ x ∈ xs, (mk x).AlikeIn X (s :: S) (mk' x)

/-- Members that are alike in a loop have the same names, references and parameters. -/
theorem MembersAlike.same (h : MembersAlike X S xs mk mk') (x : ι) (hx : x ∈ xs) :
    (mk x).ident = (mk' x).ident ∧ (mk x).ref = (mk' x).ref ∧ (mk x).params = (mk' x).params :=
  have hx := h ⟨"", _, none, []⟩ rfl x hx
  ⟨hx.ident, hx.ref, hx.params⟩

/-- `selfLoop`: a single function as a loop. -/
theorem alikeIn_selfLoop {x : ι} (h : MembersAlike X S [x] mk mk') :
    AlikeIn X S (selfLoop (mk x)) (selfLoop (mk' x)) := by
  obtain ⟨hident, href, hparams⟩ := h.same x (List.mem_singleton.2 rfl)
  unfold selfLoop
  rw [← hident, ← href, ← hparams]
  refine (alikeIn_freshName _).bind fun label => ?_
  refine (alikeIn_freshNames _).bind fun copies => ?_
  refine (alikeIn_freshNames _).bind fun slots => ?_
  have hbody := h ⟨label, [((mk x).ref, (mk x).params.length)], none, slots⟩ rfl x
    (List.mem_singleton.2 rfl)
  exact (alikeIn_inLoop (alikeIn_memberBody slots hbody)).map _

/-- `groupLoop`: several functions as one loop. -/
theorem alikeIn_groupLoop {dispatcher : Option String} (h : MembersAlike X S xs mk mk') :
    AlikeIn X S (groupLoop (xs.map mk) dispatcher) (groupLoop (xs.map mk') dispatcher) := by
  -- what a shared loop takes from its members apart from their bodies
  have hidents : (xs.map mk').map Member.ident = (xs.map mk).map Member.ident := by
    rw [List.map_map, List.map_map]
    exact List.map_congr_left fun x hx => (h.same x hx).1.symm
  have hmembers : ((xs.map mk').map fun m => (m.ref, m.params.length)) =
      (xs.map mk).map fun m => (m.ref, m.params.length) := by
    rw [List.map_map, List.map_map]
    refine List.map_congr_left fun x hx => ?_
    obtain ⟨-, href, hparams⟩ := h.same x hx
    simp [href, hparams]
  have hslots : slotCount (xs.map mk') = slotCount (xs.map mk) := by
    have hcount (members : List Member) : slotCount members =
        (members.map fun m => (m.ref, m.params.length)).foldl (fun n x => max n x.2) 0 := by
      rw [List.foldl_map]
      rfl
    rw [hcount, hcount, hmembers]
  have hentries (label : String) : entries label 0 (xs.map mk') = entries label 0 (xs.map mk) :=
    (entries_congr label 0 fun x hx => ⟨(h.same x hx).1, (h.same x hx).2.2⟩).symm
  -- what is written once the shared function has a name
  have hshared (label : String) : AlikeIn X S (do
      let selector ← freshName (label ++ "_fn")
      let slots ← freshNames
        ((List.range (slotCount (xs.map mk))).map fun i => label ++ "_" ++ Decimal.digitsText i)
      let scope : LoopScope :=
        ⟨label, (xs.map mk).map fun m => (m.ref, m.params.length), some selector, slots⟩
      let body ← inLoop scope (dispatchBody selector slots 0 (xs.map mk))
      let rest ← entries label 0 (xs.map mk)
      return Stmt.const label (.arrow (selector :: slots) [.loop body]) :: rest) (do
      let selector ← freshName (label ++ "_fn")
      let slots ← freshNames
        ((List.range (slotCount (xs.map mk))).map fun i => label ++ "_" ++ Decimal.digitsText i)
      let scope : LoopScope :=
        ⟨label, (xs.map mk).map fun m => (m.ref, m.params.length), some selector, slots⟩
      let body ← inLoop scope (dispatchBody selector slots 0 (xs.map mk'))
      let rest ← entries label 0 (xs.map mk)
      return Stmt.const label (.arrow (selector :: slots) [.loop body]) :: rest) := by
    refine (alikeIn_freshName _).bind fun selector => ?_
    refine (alikeIn_freshNames _).bind fun slots => ?_
    refine (alikeIn_inLoop (alikeIn_dispatchBody (h _ (List.map_map ..)))).bind fun body => ?_
    exact (alikeIn_entries label 0 _).map _
  unfold groupLoop
  rw [hidents, hslots, hmembers]
  simp only [hentries]
  refine (alikeIn_report _ _).bind fun _ => ?_
  cases dispatcher with
  | none => exact (alikeIn_freshName _).bind fun label => hshared label
  | some label => exact hshared label

/-- `loopDeclarations`: the loop of a group, be it one function or several. -/
theorem alikeIn_loopDeclarations {dispatcher : Option String} (h : MembersAlike X S xs mk mk') :
    AlikeIn X S (loopDeclarations (xs.map mk) dispatcher)
      (loopDeclarations (xs.map mk') dispatcher) := by
  match xs, h with
  | [], h => exact alikeIn_groupLoop h
  | [x], h =>
    have hident := (h.same x (List.mem_singleton.2 rfl)).1
    have hself (m : Member) : loopDeclarations [m] dispatcher = (do
        report .debug ("lowering " ++ m.ident ++ " to a loop")
        let function ← selfLoop m
        return [.const m.ident function]) := rfl
    rw [List.map_singleton, List.map_singleton, hself, hself, hident]
    exact (alikeIn_report _ _).bind fun _ => (alikeIn_selfLoop h).map _
  | x :: y :: rest, h =>
    have hgroup (mk : ι → Member) : loopDeclarations ((x :: y :: rest).map mk) dispatcher =
        groupLoop ((x :: y :: rest).map mk) dispatcher := rfl
    rw [hgroup, hgroup]
    exact alikeIn_groupLoop h

end Combinators

/-! ## Terms -/

variable {c c' : Context} {t : Analyzed}

/-- A top-level name outside `X` is written alike. -/
theorem globalExpr_congr {q : Qualified} (hc : c.AgreeOff X c')
    (hq : (Ref.global q).within c.name ∉ X) : globalExpr c q = globalExpr c' q := by
  obtain ⟨module, ident⟩ := q
  have hforeign (h : module = none ∨ module = some c.name) :
      c.isForeign ident = c'.isForeign ident := by
    refine hc.isForeign ident fun hmem => hq ?_
    rcases h with rfl | rfl
    · exact hmem
    · exact hmem
  cases module with
  | none => simp only [globalExpr, Context.isLocal, hforeign (.inl rfl)]
  | some m =>
    by_cases hm : m = c.name
    · simp only [globalExpr, Context.isLocal, ← hc.name, hm, decide_true,
        hforeign (.inr (congrArg some hm))]
    · simp only [globalExpr, Context.isLocal, ← hc.name, hm, decide_false]

/-- `t` is lowered alike in `c` and `c'`, and if it is a function, so is its body. -/
structure TermAlike (X : List Ref) (c c' : Context) (t : Analyzed) : Prop where
  /-- The term is lowered alike. -/
  code : (code c t).Alike X (Lower.code c' t)
  /-- The body of a function is lowered alike. -/
  inner : (Lower.code c t.inner).Alike X (Lower.code c' t.inner)

/-- `groupDeclarations`: a recursive group, which may be a loop. -/
theorem alikeIn_groupDeclarations {loop functions : Bool} {refs : List Ref} {binders : List Binder}
    {ts : List Analyzed} (h : ∀ t ∈ ts, TermAlike X c c' t) :
    AlikeIn X S (groupDeclarations loop functions refs binders (ts.map (code c)))
      (groupDeclarations loop functions refs binders (ts.map (code c'))) := by
  refine (alikeIn_bindNames binders).bind fun idents => ?_
  have hplain : AlikeIn X S (recursiveDeclarations functions (idents.zip (ts.map (code c))))
      (recursiveDeclarations functions (idents.zip (ts.map (code c')))) := by
    rw [List.zip_map_right, List.zip_map_right]
    exact alikeIn_recursiveDeclarations functions (idents.zip ts)
      fun b hb => (h b.2 (List.of_mem_zip hb).2).code
  rw [loopMembers?_eq, loopMembers?_eq]
  cases loop with
  | false => exact hplain
  | true =>
    cases ((idents.zip refs).zip ts).all fun p => p.2.body?.isSome with
    | true =>
      refine alikeIn_loopDeclarations fun s _ p hp => ?_
      exact ⟨rfl, rfl, rfl, (h p.2 (List.of_mem_zip hp).2).inner.block .looping (s :: S)⟩
    | false => exact hplain

/-- A term that mentions nothing of `X` is lowered alike. -/
theorem termAlike_code (hc : c.AgreeOff X c') (t : Analyzed)
    (h : t.mentions (some c.name) X = 0) : TermAlike X c c' t := by
  induction t using children_induction with
  | step t ih =>
  -- a subterm mentions no member either, so the induction hypothesis covers every child
  have hchild (s : Analyzed) (hs : s ∈ t.children) : TermAlike X c c' s :=
    ih s hs (mentions_child h hs)
  have hfields {fields : List (String × Analyzed)} (hts : ∀ s ∈ fields.map Prod.snd, s ∈ t.children)
      (S : List LoopScope) :
      AlikeIn X S (all (fieldCodes c fields)) (all (fieldCodes c' fields)) := by
    rw [fieldCodes_eq_map, fieldCodes_eq_map]
    exact alikeIn_all fun f hf =>
      ((hchild f.2 (hts f.2 (List.mem_map.2 ⟨f, hf, rfl⟩))).code.value S).map _
  -- only a curried function has a body of its own
  have hcode (hinner : t.inner = t) (h : (code c t).Alike X (code c' t)) : TermAlike X c c' t :=
    ⟨h, by rw [hinner]; exact h⟩
  cases t with
  | global a q =>
    refine hcode rfl (alike_ofValue fun S => ?_)
    rw [globalExpr_congr hc fun hq => refIn?_ne_of_mentions h hq rfl]
    exact .pure _
  | bound a b =>
    refine hcode rfl (alike_ofValue fun S => (alikeIn_nameOf ?_).map _)
    intro hb
    exact refIn?_ne_of_mentions h hb rfl
  | lit a value => exact hcode rfl (alike_ofValue fun S => .pure _)
  | constructor a tag fields =>
    exact hcode rfl (alike_ofValue fun S => (alikeIn_freshNames fields).map _)
  | undefined a => exact hcode rfl (alike_ofReturn (fun S => .pure _) fun S => .pure _)
  | fail a message => exact hcode rfl (alike_ofBlock fun _ S => .pure _)
  | array a items =>
    refine hcode rfl ?_
    rw [code, code, valueCodes_eq_map, valueCodes_eq_map]
    exact alike_ofValue fun S => (alikeIn_all fun s hs => (hchild s hs).code.value S).map _
  | record a fields => exact hcode rfl (alike_ofObject fun S => (hfields (fun s hs => hs) S).map _)
  | construct a type tag fields =>
    exact hcode rfl (alike_ofObject fun S => (hfields (fun s hs => hs) S).map _)
  | update a subject fields =>
    refine hcode rfl (alike_ofObject fun S => ?_)
    refine ((hchild subject (List.mem_cons_self ..)).code.value S).bind fun x => ?_
    exact (hfields (fun s hs => List.mem_cons_of_mem _ hs) S).map _
  | app a calling head args =>
    have hhead := (hchild head (List.mem_cons_self ..)).code.value
    have hargs (S : List LoopScope) (s : Analyzed) (hs : s ∈ args) :
        AlikeIn X S (code c s).value (code c' s).value :=
      (hchild s (List.mem_cons_of_mem _ hs)).code.value S
    refine hcode rfl ?_
    cases calling with
    | curried =>
      rw [code, code, valueCodes_eq_map, valueCodes_eq_map, hc.name]
      exact alike_appCode _ hhead fun s hs S => hargs S s hs
    | uncurried =>
      rw [code, code, valueCodes_eq_map, valueCodes_eq_map]
      exact alike_ofValue fun S => alikeIn_callAll (hhead S) (hargs S)
    | effectful =>
      rw [code, code, valueCodes_eq_map, valueCodes_eq_map]
      exact alike_effectAppCode hhead fun s hs S => hargs S s hs
  | abs a calling params body =>
    have hbody := (hchild body (List.mem_singleton.2 rfl)).code
    cases calling with
    | curried => exact ⟨alike_curriedCode hbody, hbody⟩
    | uncurried => exact hcode rfl (alike_arrowCode (hbody.block .plain))
    | effectful => exact hcode rfl (alike_arrowCode (hbody.block .effectful))
  | letIn a b value body =>
    have hvalue := (hchild value (by simp [children])).code
    have hbody := (hchild body (by simp [children])).code
    exact hcode rfl (alike_ofBlock fun mode S => alikeIn_letBlock hvalue (hbody.block mode S))
  | letRec a level bindings body =>
    have hts (s : Analyzed) (hs : s ∈ bindings.map Prod.snd) : TermAlike X c c' s :=
      hchild s (List.mem_append_left _ hs)
    have hbody := (hchild body (by simp [children])).code
    refine hcode rfl ?_
    rw [code, code, bindingCodes_eq, bindingCodes_eq, hc.loops]
    exact alike_ofBlock fun mode S =>
      (alikeIn_groupDeclarations hts).bind fun declarations => (hbody.block mode S).map _
  | bindEffect a b effect body =>
    exact hcode rfl (alike_bindCode (hchild effect (by simp [children])).code
      (hchild body (by simp [children])).code)
  | pureEffect a value => exact hcode rfl (alike_pureCode (hchild value (by simp [children])).code)
  | deferEffect a effect =>
    exact hcode rfl (alike_deferCode (hchild effect (by simp [children])).code)
  | branch a arms default =>
    have harm {arm : Analyzed × Analyzed} (harm : arm ∈ arms) (s : Analyzed)
        (hs : s ∈ [arm.1, arm.2]) : TermAlike X c c' s :=
      hchild s (List.mem_append_left _ (List.mem_flatMap.2 ⟨arm, harm, hs⟩))
    refine hcode rfl ?_
    rw [code, code, armCodes_eq_map, armCodes_eq_map]
    exact alike_branchCode _ (fun arm hmem => (harm hmem _ (by simp)).code)
      (fun arm hmem => (harm hmem _ (by simp)).code) (hchild default (by simp [children])).code
  | access a subject accessor =>
    exact hcode rfl (alike_ofValue fun S =>
      ((hchild subject (by simp [children])).code.value S).map _)
  | test a subject guard =>
    exact hcode rfl (alike_ofValue fun S =>
      ((hchild subject (by simp [children])).code.value S).map _)
  | unary a op operand =>
    exact hcode rfl (alike_ofValue fun S =>
      ((hchild operand (by simp [children])).code.value S).map _)
  | binary a op left right =>
    exact hcode rfl (alike_ofValue fun S =>
      ((hchild left (by simp [children])).code.value S).bind fun x =>
        ((hchild right (by simp [children])).code.value S).map _)

/-- Steps that do the same in the loops `S` can be exchanged. -/
theorem AlikeIn.congr {m m' n n' : Lowering α} (hm : ∀ p, p.env.scopes = S → m p = n p)
    (hm' : ∀ p, p.env.scopes = S → m' p = n' p) (h : AlikeIn X S n n') : AlikeIn X S m m' := by
  intro p p' hp hagree
  rw [hm p hp, hm' p' (hagree.scopes ▸ hp)]
  exact h p p' hp hagree

/-- Of `appCode`, where the head is the member `j` of the innermost loop and all arguments are
there: the block assigns the slots and starts the next round. -/
theorem block_appCode {r : Ref} {j : Jump} {callee : Lowering Script.Expr}
    {args : List (Lowering Script.Expr)} (hj : Env.findIn r 0 S = some j) (hexited : j.exited = 0)
    (harity : j.arity = args.length) (p : Progress) (hp : p.env.scopes = S) :
    (appCode (some r) callee args).block .looping p = (do return jumpStmts j (← all args)) p := by
  have hjump : jumpTo? r p = (some j, p) := by
    have hfind : p.env.findJump? r = some j := by rw [Env.findJump?, hp, hj]
    exact congrArg (·, p) hfind
  have hsome : jump? (some r) args p = (do return some (jumpStmts j (← all args))) p := by
    simp only [jump?, bind, StateT.bind, hjump, hexited, harity]
    simp
    rfl
  simp only [appCode, Mode.looping, if_true, bind, StateT.bind, hsome]
  rfl

/-- If all calls of members in `t` are full tail calls, the body of the loop `s` does not depend on
how `c` and `c'` would write references to the members. -/
theorem alikeIn_looping {s : LoopScope} (hc : c.AgreeOff (s.members.map Prod.fst) c')
    (hpos : ∀ x ∈ s.members, 0 < x.2) (t : Analyzed) (h : t.CallsFully (some c.name) s.members) :
    AlikeIn (s.members.map Prod.fst) (s :: S) ((code c t).block .looping)
      ((code c' t).block .looping) := by
  induction t using children_induction with
  | step t ih =>
  have hsilent {u : Analyzed} (hu : u.mentions (some c.name) (s.members.map Prod.fst) = 0) :
      (code c u).Alike (s.members.map Prod.fst) (code c' u) := (termAlike_code hc u hu).code
  -- a term without any call of a member is written alike wherever it stands
  by_cases hplain : t.mentions (some c.name) (s.members.map Prod.fst) = 0
  · exact (hsilent hplain).block .looping (s :: S)
  cases t with
  | app a calling head args =>
    cases calling with
    | curried =>
      -- a call of a member becomes a jump, which says nothing of the context but its arguments
      by_cases hr : ∃ r ∈ s.members.map Prod.fst, head.refIn? (some c.name) = some r
      · obtain ⟨r, hr, href⟩ := hr
        obtain ⟨i, x, hx, hxr, hfind⟩ := findIn_cons (S := S) hr
        have hlen : x.2 = args.length := (h.length_args hx (hxr ▸ href)).symm
        have hblock (k : Context) (hname : k.name = c.name) (p : Progress)
            (hp : p.env.scopes = s :: S) :
            (code k (.app a .curried head args)).block .looping p =
              (do
                let values ← all (args.map fun u => (code k u).value)
                return jumpStmts ⟨s, i, x.2, 0⟩ values) p := by
          have hhead : head.ref?.map (Ref.within k.name) = some r := by
            rw [hname]
            exact href
          rw [code, valueCodes_eq_map, hhead]
          exact block_appCode hfind rfl (by rw [List.length_map]; exact hlen) p hp
        refine .congr (hblock c rfl) (hblock c' hc.name.symm) ?_
        exact (alikeIn_all fun u hu => (hsilent (h.mentions_args u hu)).value (s :: S)).map _
      · exact absurd (h.mentions_app fun r hmem href => hr ⟨r, hmem, href⟩) hplain
    | _ => exact absurd (h.mentions_eq_zero hpos rfl (fun _ => rfl) fun _ => rfl) hplain
  -- the remaining shapes with a body in tail position, and there only
  | letIn a b value body =>
    obtain ⟨hzero, hcalls⟩ := h.letIn
    exact alikeIn_letBlock (hsilent hzero) (ih body (by simp [children]) hcalls)
  | letRec a level bindings body =>
    obtain ⟨hzero, hloops, hsilentBody⟩ := h.letRec
    rw [code, code, bindingCodes_eq, bindingCodes_eq, hc.loops]
    refine (alikeIn_groupDeclarations fun u hu => termAlike_code hc u (hzero u hu)).bind
      fun declarations => AlikeIn.map _ ?_
    cases hflag : a.isLoop with
    | true => exact ih body (by simp [children]) (hloops hflag)
    | false => exact (hsilent (hsilentBody hflag)).block .looping (s :: S)
  | branch a arms default =>
    obtain ⟨hzero, hcalls, hdefault⟩ := h.branch
    rw [code, code, armCodes_eq_map, armCodes_eq_map]
    refine alikeIn_branchBlock _ .looping (fun arm harm => hsilent (hzero arm harm)) ?_
      (ih default (by simp [children]) hdefault)
    refine fun arm harm => ih arm.2 ?_ (hcalls arm harm)
    exact List.mem_append_left _ (List.mem_flatMap.2 ⟨arm, harm, by simp⟩)
  | _ => exact absurd (h.mentions_eq_zero hpos rfl (fun _ => rfl) fun _ => rfl) hplain

/-- Nor does the loop of a group of bindings `ts` that is called in the way of a loop. -/
theorem alikeIn_loopGroup {idents : List String} {refs : List Ref} {ts : List Analyzed}
    {dispatcher : Option String} (hidents : idents.length = ts.length)
    (hrefs : refs.length = ts.length) (hloop : LoopsFully (some c.name) refs ts)
    (hc : c.AgreeOff refs c') :
    AlikeIn refs S (loopDeclarations (((idents.zip refs).zip ts).map (memberOf c)) dispatcher)
      (loopDeclarations (((idents.zip refs).zip ts).map (memberOf c')) dispatcher) := by
  refine alikeIn_loopDeclarations fun s hs p hp => ⟨rfl, rfl, rfl, ?_⟩
  rw [members_memberOf hidents hrefs] at hs
  have hfst : s.members.map Prod.fst = refs := by
    rw [hs]
    exact List.map_fst_zip (Nat.le_of_eq (by rw [List.length_map, hrefs]))
  have hmem : p.2.inner ∈ bodies ts := by
    rw [bodies_eq_map hloop.functions]
    exact List.mem_map.2 ⟨p.2, (List.of_mem_zip hp).2, rfl⟩
  have hpos : ∀ x ∈ s.members, 0 < x.2 := hs ▸ hloop.pos
  have hcalls : p.2.inner.CallsFully (some c.name) s.members := hs ▸ hloop.calls _ hmem
  subst hfst
  exact alikeIn_looping hc hpos p.2.inner hcalls

end TailLoop.Lower
