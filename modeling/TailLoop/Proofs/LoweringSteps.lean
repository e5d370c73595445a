import TailLoop.Proofs.BlockEnds
import TailLoop.Proofs.EmissionLoops

/-!
# What the lowering is built from

Every way to lower a term is built from a few basic steps, one after the other. A fact that holds of
the basic steps and survives sequencing therefore holds of the lowering of every term, in any state.

* `Built`: steps that are built from the basic ones.
* `built_code`: the lowering of a term is built from them.
* `Built.steady`: the result depends on the environment only, neither on the journal nor on the text
  of a clash.
* `Built.scopes`: the loops that are being written are restored.
* `Built.clashed`: a clash is not forgotten.
-/

namespace TailLoop.Lower

open Script Lowering Term

/-- Steps that are built from basic ones: to take, give and look up names, to look for a member of a
loop, to report, to remember a clash, and to run a step inside a loop. -/
inductive Built : {α : Type} → Lowering α → Prop
  | pure {α : Type} (a : α) : Built (pure a : Lowering α)
  | bind {α β : Type} {m : Lowering α} {k : α → Lowering β} : Built m → (∀ a, Built (k a)) →
      Built (m >>= k)
  | report (detail : Detail) (message : String) : Built (report detail message)
  | clash (x : ArityClash) : Built (clash x)
  | freshName (base : String) : Built (freshName base)
  | bindName (b : Binder) : Built (bindName b)
  | nameOf (b : Binder) : Built (nameOf b)
  | jumpTo? (r : Ref) : Built (jumpTo? r)
  | inLoop {α : Type} {s : LoopScope} {m : Lowering α} : Built m → Built (inLoop s m)

variable {α β : Type}

namespace Built

variable {m : Lowering α}

/-- `f` may wrap the result. -/
theorem map {f : α → β} (hm : Built m) : Built (do return f (← m)) := hm.bind fun a => .pure (f a)

/-! ## Facts about all steps -/

/-- What a step does is decided by the environment. From `p` and `p'`, which differ in the journal
or in the text of a clash only, it has the same result and leads to such states. -/
theorem steady (h : Built m) {p p' : Progress} (henv : p.env = p'.env)
    (hclash : p.clash.isSome = p'.clash.isSome) :
    (m p).1 = (m p').1 ∧ (m p).2.env = (m p').2.env ∧
      (m p).2.clash.isSome = (m p').2.clash.isSome := by
  induction h generalizing p p' with
  | pure a => exact ⟨rfl, henv, hclash⟩
  | bind hm hk ihm ihk =>
    rename_i m k
    -- equal results of the first step make the second step the same in both runs
    obtain ⟨hresult, henv', hclash'⟩ := ihm henv hclash
    have hnext := ihk (m p).1 henv' hclash'
    have hsame : k (m p).1 (m p').2 = (m >>= k) p' := by
      rw [hresult]
      rfl
    rw [hsame] at hnext
    exact hnext
  | report => exact ⟨rfl, henv, hclash⟩
  | clash => exact ⟨rfl, henv, rfl⟩
  | freshName base =>
    refine ⟨?_, ?_, hclash⟩
    · exact congrArg (fun e : Env => (e.fresh base).1) henv
    · exact congrArg (fun e : Env => (e.fresh base).2) henv
  | bindName b =>
    refine ⟨?_, ?_, hclash⟩
    · exact congrArg (fun e : Env => (e.bind b).1) henv
    · exact congrArg (fun e : Env => (e.bind b).2) henv
  | nameOf b => exact ⟨congrArg (Env.lookup · b) henv, henv, hclash⟩
  | jumpTo? r => exact ⟨congrArg (Env.findJump? · r) henv, henv, hclash⟩
  | inLoop hm ih =>
    rename_i s m
    -- the scopes inside are pushed on equal ones, and afterwards cut to the same depth
    have hin := @ih (enterLoop s p) (enterLoop s p') (congrArg (Env.push · s) henv) hclash
    refine ⟨hin.1, ?_, hin.2.2⟩
    show (m (enterLoop s p)).2.env.truncate p.env.depth =
      (m (enterLoop s p')).2.env.truncate p'.env.depth
    rw [hin.2.1, henv]

/-- A `Built` step restores the loops. -/
theorem scopes (h : Built m) (p : Progress) : (m p).2.env.scopes = p.env.scopes := by
  induction h generalizing p with
  | bind hm hk ihm ihk =>
    rename_i m k
    exact (ihk (m p).1 (m p).2).trans (ihm p)
  | inLoop hm ih =>
    rename_i s m
    show ((m (enterLoop s p)).2.env.truncate p.env.depth).scopes = p.env.scopes
    have hin : (m (enterLoop s p)).2.env.scopes = s :: p.env.scopes := ih (enterLoop s p)
    rw [Env.truncate, hin, Env.depth, List.length_cons, Nat.add_sub_cancel_left, List.drop_one,
      List.tail_cons]
  | bindName b =>
    obtain ⟨name, level⟩ := b
    cases name <;> rfl
  | _ => rfl

/-- A `Built` step does not forget a clash. -/
theorem clashed (h : Built m) {p : Progress} (hclash : (m p).2.clash = none) : p.clash = none := by
  induction h generalizing p with
  | bind hm hk ihm ihk => exact ihm (ihk _ hclash)
  | clash => cases hclash
  | inLoop hm ih =>
    rename_i s m
    exact ih (p := enterLoop s p) hclash
  | _ => exact hclash

/-! ## Sequences of steps -/

/-- `all`: steps one after the other. -/
theorem all {ms : List (Lowering α)} (h : ∀ m ∈ ms, Built m) : Built (Lowering.all ms) := by
  induction ms with
  | nil => exact .pure []
  | cons m rest ih =>
    obtain ⟨hm, hrest⟩ := List.forall_mem_cons.1 h
    exact hm.bind fun a => (ih hrest).map

/-- `freshNames`: a name for each base. -/
theorem freshNames (bases : List String) : Built (Lowering.freshNames bases) := by
  induction bases with
  | nil => exact .pure []
  | cons base rest ih => exact (freshName base).bind fun name => ih.map

/-- `bindNames`: names for binders. -/
theorem bindNames (bs : List Binder) : Built (Lowering.bindNames bs) := by
  induction bs with
  | nil => exact .pure []
  | cons b rest ih => exact (bindName b).bind fun name => ih.map

end Built

/-! ## Ways to lower a term -/

/-- All ways to lower by `K` are built from basic steps. -/
structure Code.Built (K : Code) : Prop where
  /-- The expression is. -/
  value : Lower.Built K.value
  /-- The statement is. -/
  returned : Lower.Built K.returned
  /-- The effect is. -/
  run : Lower.Built K.run
  /-- The blocks are. -/
  block : ∀ mode, Lower.Built (K.block mode)
  /-- The body of a curried function is. -/
  function : ∀ f, K.function = some f → Lower.Built f.2

section Combinators

variable {K K' : Code} {value callee : Lowering Script.Expr} {args : List (Lowering Script.Expr)}

/-- `Code.ofReturn`: a value with a returning statement of its own. -/
theorem built_ofReturn {returned : Lowering Stmt} (hv : Built value) (hr : Built returned) :
    (Code.ofReturn value returned).Built where
  value := hv
  returned := hr
  run := hv.map
  block mode := by
    simp only [Code.ofReturn]
    split
    · exact hv.map
    · exact hr.map
  function := nofun

/-- `Code.ofValue`: a term that is an expression. -/
theorem built_ofValue (hv : Built value) : (Code.ofValue value).Built := built_ofReturn hv hv.map

/-- `Code.ofObject`: a term that is an object literal. -/
theorem built_ofObject (hv : Built value) : (Code.ofObject value).Built := built_ofReturn hv hv.map

/-- `Code.ofBlock`: a term that is written as statements. -/
theorem built_ofBlock {block : Mode → Lowering (List Stmt)} (h : ∀ mode, Built (block mode)) :
    (Code.ofBlock block).Built where
  value := (h .plain).map
  returned := (h .plain).map
  run := (h .plain).map
  block := h
  function := nofun

/-- `Code.ofEffect`: an effect, which is a function where it is not run. -/
theorem built_ofEffect {body : Lowering (List Stmt)} {run : Lowering Script.Expr}
    {block : Mode → Lowering (List Stmt)} (hbody : Built body) (hrun : Built run)
    (hblock : ∀ mode, Built (block mode)) : (Code.ofEffect body run block).Built where
  value := hbody.map
  returned := hbody.map
  run := hrun
  block mode := by
    simp only [Code.ofEffect]
    split
    · exact hblock mode
    · exact hbody.map
  function := nofun

/-- `callEach`: a call with arguments one by one. -/
theorem built_callEach (hf : Built callee) (hargs : ∀ arg ∈ args, Built arg) :
    Built (callEach callee args) := by
  induction args generalizing callee with
  | nil => exact hf
  | cons arg rest ih =>
    obtain ⟨harg, hrest⟩ := List.forall_mem_cons.1 hargs
    exact ih (hf.bind fun f => harg.map) hrest

/-- `callAll`: a call with all arguments. -/
theorem built_callAll (hf : Built callee) (hargs : ∀ arg ∈ args, Built arg) :
    Built (callAll callee args) := hf.bind fun _ => (Built.all hargs).map

/-- `jump?`: what a call becomes in a loop. -/
theorem built_jump? (r? : Option Ref) (hargs : ∀ arg ∈ args, Built arg) :
    Built (jump? r? args) := by
  cases r? with
  | none => exact .pure none
  | some r =>
    refine (Built.jumpTo? r).bind fun j? => ?_
    cases j? with
    | none => exact .pure none
    | some j =>
      simp only
      split
      · exact (Built.report ..).bind fun _ => .pure none
      · split
        · exact (Built.clash _).bind fun _ => .pure none
        · exact (Built.all hargs).map

/-- `appCode`: an application to arguments one by one, which a loop can make a jump. -/
theorem built_appCode (r? : Option Ref) (hf : Built callee) (hargs : ∀ arg ∈ args, Built arg) :
    (appCode r? callee args).Built := by
  have hplain := built_ofValue (built_callEach hf hargs)
  refine ⟨hplain.value, hplain.returned, hplain.run, fun mode => ?_, nofun⟩
  simp only [appCode]
  split
  · refine (built_jump? r? hargs).bind fun stmts? => ?_
    cases stmts? with
    | none => exact hplain.returned.map
    | some stmts => exact .pure stmts
  · exact hplain.block mode

/-- `curriedCode`: a function that takes its parameters one by one. -/
theorem built_curriedCode {params : List Binder} (h : K.Built) : (curriedCode params K).Built := by
  have hvalue : Built (do
      let names ← bindNames params
      return Script.Expr.curried names (← K.block .plain)) :=
    (Built.bindNames params).bind fun names => (h.block .plain).map
  have hplain := built_ofValue hvalue
  refine ⟨hplain.value, hplain.returned, hplain.run, hplain.block, ?_⟩
  rintro _ ⟨⟩
  exact h.block .looping

/-- `arrowCode`: a function that takes its parameters at once. -/
theorem built_arrowCode {params : List Binder} {body : Lowering (List Stmt)} (h : Built body) :
    (arrowCode params body).Built :=
  built_ofValue ((Built.bindNames params).bind fun _ => h.map)

/-- `effectAppCode`: an application that is an effect. -/
theorem built_effectAppCode (hf : Built callee) (hargs : ∀ arg ∈ args, Built arg) :
    (effectAppCode callee args).Built := by
  have hrun := built_callAll hf hargs
  exact built_ofEffect hrun.map hrun fun _ => hrun.map

/-- `letCode`: a binding in front of the block of its body. -/
theorem built_letCode {b : Binder} (hv : K.Built) (h : K'.Built) : (letCode b K K').Built :=
  built_ofBlock fun mode => hv.value.bind fun _ => (Built.bindName b).bind fun _ =>
    (h.block mode).map

/-- `bindStmt`: an effect that is run, whose result is bound if the binder has a name. -/
theorem built_bindStmt (b : Binder) (e : Script.Expr) : Built (bindStmt b e) := by
  unfold bindStmt
  split
  · exact (Built.bindName b).map
  · exact .pure _

/-- `bindCode`: an effect that goes on with the result of another. -/
theorem built_bindCode {b : Binder} (he : K.Built) (h : K'.Built) : (bindCode b K K').Built := by
  have hblock (mode : Mode) : Built (do
      let x ← K.run
      let s ← bindStmt b x
      let rest ← K'.block mode
      return s :: rest) :=
    he.run.bind fun x => (built_bindStmt b x).bind fun s => (h.block mode).map
  exact built_ofEffect (hblock .effectful) (hblock .effectful).map hblock

/-- `pureCode`: an effect that gives a value. -/
theorem built_pureCode (h : K.Built) : (pureCode K).Built :=
  built_ofEffect h.returned.map h.value fun _ => h.returned.map

/-- `deferCode`: an effect that is built when it runs. -/
theorem built_deferCode (h : K.Built) : (deferCode K).Built :=
  built_ofEffect (h.block .effectful) (h.block .effectful).map h.block

/-- `armBlocks`: the arms of a branch with blocks of their own. -/
theorem built_armBlocks {mode : Mode} {arms : List (Code × Code)}
    (h : ∀ arm ∈ arms, arm.1.Built ∧ arm.2.Built) : Built (armBlocks mode arms) := by
  induction arms with
  | nil => exact .pure []
  | cons arm rest ih =>
    obtain ⟨⟨hcond, hbody⟩, hrest⟩ := List.forall_mem_cons.1 h
    exact hcond.value.bind fun x => (hbody.block mode).bind fun block => (ih hrest).map

/-- `conditionalExpr`: the arms of a branch as a conditional expression. -/
theorem built_conditionalExpr {arms : List (Code × Code)}
    (h : ∀ arm ∈ arms, arm.1.Built ∧ arm.2.Built) (hdefault : K.Built) :
    Built (conditionalExpr arms K) := by
  induction arms with
  | nil => exact hdefault.value
  | cons arm rest ih =>
    obtain ⟨⟨hcond, hbody⟩, hrest⟩ := List.forall_mem_cons.1 h
    exact hcond.value.bind fun x => hbody.value.bind fun yes => (ih hrest).map

/-- `branchCode`: a branch, as an expression or as a chain of blocks. -/
theorem built_branchCode {simple : Bool} {arms : List (Code × Code)}
    (h : ∀ arm ∈ arms, arm.1.Built ∧ arm.2.Built) (hdefault : K.Built) :
    (branchCode simple arms K).Built := by
  have hblock (mode : Mode) : Built (do
      let blocks ← armBlocks mode arms
      let rest ← K.block mode
      return (if blocks.isEmpty then [] else [Stmt.chain blocks]) ++ rest) :=
    (built_armBlocks h).bind fun blocks => (hdefault.block mode).map
  unfold branchCode
  split
  · have hvalue := built_ofValue (built_conditionalExpr h hdefault)
    exact ⟨hvalue.value, hvalue.returned, hvalue.run, hblock, nofun⟩
  · exact built_ofBlock hblock

/-! ## Recursive groups -/

/-- `declareValues`: declarations of values, one by one. -/
theorem built_declareValues {declaration : String → Script.Expr → Stmt}
    {bindings : List (String × Code)} (h : ∀ b ∈ bindings, b.2.Built) :
    Built (declareValues declaration bindings) := by
  induction bindings with
  | nil => exact .pure []
  | cons b rest ih =>
    obtain ⟨hb, hrest⟩ := List.forall_mem_cons.1 h
    exact hb.value.bind fun x => (ih hrest).map

/-- `recursiveDeclarations`: a group that is no loop. -/
theorem built_recursiveDeclarations (functions : Bool) {bindings : List (String × Code)}
    (h : ∀ b ∈ bindings, b.2.Built) : Built (recursiveDeclarations functions bindings) := by
  unfold recursiveDeclarations
  split
  · exact built_declareValues h
  · exact (built_declareValues h).map

/-- `bindParams`: constants for parameters, with the values of the slots. -/
theorem built_bindParams (params : List Binder) (slots : List String) :
    Built (bindParams params slots) := by
  fun_induction bindParams params slots with
  | case1 b params slot slots ih => exact (Built.bindName b).bind fun name => ih.map
  | case2 => exact .pure []

/-- `memberBody`: the body of a loop member after constants for its parameters. -/
theorem built_memberBody {m : Member} (slots : List String) (h : Built m.body) :
    Built (memberBody m slots) :=
  (built_bindParams m.params slots).bind fun _ => h.map

/-- `dispatchBody`: the bodies of all members behind tests of the selector. -/
theorem built_dispatchBody {selector : String} {slots : List String} {i : Nat}
    {members : List Member} (h : ∀ m ∈ members, Built m.body) :
    Built (dispatchBody selector slots i members) := by
  fun_induction dispatchBody selector slots i members with
  | case1 => exact .pure []
  | case2 i m => exact built_memberBody slots (h m (List.mem_singleton.2 rfl))
  | case3 i m rest hne ih =>
    obtain ⟨hm, hrest⟩ := List.forall_mem_cons.1 h
    exact (built_memberBody slots hm).bind fun block => (ih hrest).map

/-- `entries`: the functions that enter a shared loop. -/
theorem built_entries (label : String) (i : Nat) (members : List Member) :
    Built (entries label i members) := by
  induction members generalizing i with
  | nil => exact .pure []
  | cons m rest ih => exact (Built.freshNames _).bind fun copies => (ih (i + 1)).map

/-- `selfLoop`: a single function as a loop. -/
theorem built_selfLoop {m : Member} (h : Built m.body) : Built (selfLoop m) :=
  (Built.freshName _).bind fun _ => (Built.freshNames _).bind fun _ =>
    (Built.freshNames _).bind fun slots => (built_memberBody slots h).inLoop.map

/-- `sharedLoop`: several functions as one loop, once the shared function has a name. -/
theorem built_sharedLoop {members : List Member} (label : String)
    (h : ∀ m ∈ members, Built m.body) : Built (sharedLoop members label) :=
  (Built.freshName _).bind fun _ => (Built.freshNames _).bind fun _ =>
    (built_dispatchBody h).inLoop.bind fun _ => (built_entries label 0 members).map

/-- `loopDeclarations`: the loop of a group, be it one function or several. -/
theorem built_loopDeclarations {members : List Member} (dispatcher : Option String)
    (h : ∀ m ∈ members, Built m.body) : Built (loopDeclarations members dispatcher) := by
  unfold loopDeclarations
  split
  · rename_i m
    exact (Built.report ..).bind fun _ => (built_selfLoop (h m (List.mem_singleton.2 rfl))).map
  · rw [groupLoop_eq]
    refine (Built.report ..).bind fun _ => Built.bind ?_ fun label => built_sharedLoop label h
    cases dispatcher with
    | none => exact .freshName _
    | some label => exact .pure label

end Combinators

/-! ## Terms -/

variable {c : Context}

/-- `loopMembers?`: the bodies of the members of a loop are blocks of `code`. -/
theorem built_loopMembers? {idents : List String} {refs : List Ref} {ts : List Analyzed}
    {members : List Member} (h : ∀ t ∈ ts, (code c t).Built)
    (hmembers : loopMembers? idents refs (ts.map (code c)) = some members) :
    ∀ m ∈ members, Built m.body := by
  rw [loopMembers?_eq] at hmembers
  split at hmembers
  · rename_i hall
    obtain rfl := Option.some.inj hmembers
    refine List.forall_mem_map.2 fun p hp => ?_
    have hfunction := function_code c p.2
    rw [if_pos (List.all_eq_true.1 hall p hp)] at hfunction
    exact (h p.2 (List.of_mem_zip hp).2).function _ hfunction
  · cases hmembers

/-- `groupDeclarations`: a recursive group, which may be a loop. -/
theorem built_groupDeclarations {loop functions : Bool} {refs : List Ref} {binders : List Binder}
    {ts : List Analyzed} (h : ∀ t ∈ ts, (code c t).Built) :
    Built (groupDeclarations loop functions refs binders (ts.map (code c))) := by
  refine (Built.bindNames binders).bind fun idents => ?_
  split
  · rename_i members hmembers
    exact built_loopDeclarations none (built_loopMembers? h hmembers)
  · refine built_recursiveDeclarations functions fun b hb => ?_
    obtain ⟨t, ht, heq⟩ := List.mem_map.1 (List.of_mem_zip hb).2
    exact heq ▸ h t ht

/-- By induction on `t`: its lowering is built from basic steps. -/
theorem built_code (c : Context) (t : Analyzed) : (code c t).Built := by
  induction t using children_induction with
  | step t ih =>
  -- everything that is written is put together from the basic steps
  have hvalues {ts : List Analyzed} (hts : ts ⊆ t.children) : ∀ m ∈ valueCodes c ts, Built m := by
    rw [valueCodes_eq_map]
    exact List.forall_mem_map.2 fun s hs => (ih s (hts hs)).value
  have hfields {fields : List (String × Analyzed)} (hts : fields.map Prod.snd ⊆ t.children) :
      Built (all (fieldCodes c fields)) := by
    rw [fieldCodes_eq_map]
    refine Built.all (List.forall_mem_map.2 fun f hf => ?_)
    exact (ih f.2 (hts (List.mem_map_of_mem hf))).value.map
  cases t with
  | global => exact built_ofValue (.pure _)
  | bound a b => exact built_ofValue (Built.nameOf b).map
  | lit => exact built_ofValue (.pure _)
  | constructor a tag fields => exact built_ofValue (Built.freshNames fields).map
  | undefined => exact built_ofReturn (.pure _) (.pure _)
  | fail => exact built_ofBlock fun _ => .pure _
  | array a items => exact built_ofValue (Built.all (hvalues fun _ h => h)).map
  | record a fields => exact built_ofObject (hfields fun _ h => h).map
  | construct a type tag fields => exact built_ofObject (hfields fun _ h => h).map
  | update a subject fields =>
    refine built_ofObject ((ih subject (by simp [children])).value.bind fun x => ?_)
    exact (hfields (List.subset_cons_self ..)).map
  | app a calling head args =>
    have hhead := (ih head (by simp [children])).value
    have hargs := hvalues (List.subset_cons_self head args)
    cases calling with
    | curried => exact built_appCode _ hhead hargs
    | uncurried => exact built_ofValue (built_callAll hhead hargs)
    | effectful => exact built_effectAppCode hhead hargs
  | abs a calling params body =>
    have hbody := ih body (by simp [children])
    cases calling with
    | curried => exact built_curriedCode hbody
    | uncurried => exact built_arrowCode (hbody.block .plain)
    | effectful => exact built_arrowCode (hbody.block .effectful)
  | access a subject => exact built_ofValue (ih subject (by simp [children])).value.map
  | test a subject => exact built_ofValue (ih subject (by simp [children])).value.map
  | unary a op operand => exact built_ofValue (ih operand (by simp [children])).value.map
  | binary a op left right =>
    exact built_ofValue ((ih left (by simp [children])).value.bind fun x =>
      (ih right (by simp [children])).value.map)
  | letIn a b value body =>
    exact built_letCode (ih value (by simp [children])) (ih body (by simp [children]))
  | letRec a level bindings body =>
    rw [code, bindingCodes_eq]
    refine built_ofBlock fun mode => Built.bind ?_ fun declarations => ?_
    · exact built_groupDeclarations fun s hs => ih s (List.mem_append_left _ hs)
    · exact ((ih body (by simp [children])).block mode).map
  | bindEffect a b effect body =>
    exact built_bindCode (ih effect (by simp [children])) (ih body (by simp [children]))
  | pureEffect a value => exact built_pureCode (ih value (by simp [children]))
  | deferEffect a effect => exact built_deferCode (ih effect (by simp [children]))
  | branch a arms default =>
    rw [code, armCodes_eq_map]
    refine built_branchCode (List.forall_mem_map.2 fun arm harm => ?_)
      (ih default (by simp [children]))
    have hchild (s : Analyzed) (hs : s ∈ [arm.1, arm.2]) : (code c s).Built :=
      ih s (List.mem_append_left _ (List.mem_flatMap.2 ⟨arm, harm, hs⟩))
    exact ⟨hchild arm.1 (by simp), hchild arm.2 (by simp)⟩

end TailLoop.Lower
