import TailLoop.Proofs.BlockEnds
import TailLoop.Proofs.LocalDecisions
import TailLoop.Proofs.NameResolution
import TailLoop.Proofs.ReadForms
import TailLoop.Proofs.ScriptNodes

/-!
# Rules for lowered terms

What has to hold of a term so that a rule allows all nodes of the script that it is lowered to. The
names in the script are made from those of the term, and an expression stands first in a larger one
because its term does, or because the lowering has put it there; no object literal and no integer
comes to stand there in the second way.

* `Term.leaders`: the subterms whose expressions larger ones start with.
* `FitsRule`: what a rule asks of a node of a term.
* `obeys_code`: what a term that fits is lowered to obeys.
* `obeys_module`: the statement for whole units.
-/

namespace TailLoop

namespace Term

variable {α : Type}

/-- The names of the `binders` of a node, or of the parameters of a constructor. -/
def givenNames : Term α → List String
  | constructor _ _ fields => fields
  | t => t.binders.filterMap Binder.name

mutual

/-- The subterms whose values are called when the term is `run` as an effect. -/
def called : Term α → List (Term α)
  | app _ .effectful _ _ | bindEffect .. | pureEffect .. | deferEffect .. => []
  | letIn _ _ _ body | letRec _ _ _ body => body.called
  | t@(branch _ arms default) => t :: (calledArms arms ++ default.called)
  | t => [t]

/-- `called` for the arms of a branch. -/
def calledArms : List (Term α × Term α) → List (Term α)
  | [] => []
  | (_, body) :: rest => body.called ++ calledArms rest

end

/-- The subterms whose expressions stand first in larger ones: what is applied, read from, tested or
run, and the left one of two operands. -/
def leaders : Term α → List (Term α)
  | app _ _ head _ => [head]
  | access _ subject _ | test _ subject _ => [subject]
  | binary _ _ left _ => [left]
  | branch _ arms _ => arms.map Prod.fst
  | abs _ .effectful _ body => body.called
  | bindEffect _ _ effect body => effect.called ++ body.called
  | deferEffect _ effect => effect.called
  | _ => []

/-- The subterms of which `access` or `test` reads a property. -/
def subjects : Term α → List (Term α)
  | access _ subject (.property _) | access _ subject (.field ..) => [subject]
  | test _ subject (.tag _) | test _ subject (.length _) => [subject]
  | _ => []

/-- `resultBinders b` gives the name of `b`, if it has one. -/
theorem filterMap_resultBinders (b : Binder) :
    (resultBinders b).filterMap Binder.name = [b].filterMap Binder.name := by
  obtain ⟨name?, level⟩ := b
  cases name? <;> rfl

/-- `calledArms` are `called` in the bodies of the arms. -/
theorem calledArms_eq (arms : List (Term α × Term α)) :
    calledArms arms = arms.flatMap fun arm => arm.2.called := by
  induction arms with
  | nil => rfl
  | cons arm rest ih => rw [calledArms, ih, List.flatMap_cons]

variable {β : Type} (f : α → β)

/-- The children of a term with other notes, as `map f` gives them. -/
theorem children_map (t : Term α) : (t.map f).children = t.children.map (map f) := by
  cases t <;> simp [map, children, List.flatMap_map, List.map_flatMap, Function.comp_def]

/-- The `subterms` of `t.map f`. -/
theorem subterms_map (t : Term α) : (t.map f).subterms = t.subterms.map (map f) := by
  induction t using children_induction with
  | step t ih =>
  rw [subterms_eq, subterms_eq, children_map, List.map_cons, List.map_flatMap, List.flatMap_map]
  exact congrArg _ (List.flatMap_congr ih)

/-- The nodes of an analysed term are those of the term, once `erase` has dropped their notes. -/
theorem erase_mem_subterms {c : Candidates} {t : Expr} {s : Analyzed}
    (h : s ∈ (TailLoop.analyze c t).subterms) : s.erase ∈ t.subterms := by
  have hmem : s.erase ∈ (TailLoop.analyze c t).erase.subterms := by
    show s.map _ ∈ ((TailLoop.analyze c t).map _).subterms
    rw [subterms_map]
    exact List.mem_map_of_mem h
  rwa [erase_analyze] at hmem

/-- `map` keeps the `givenNames`. -/
theorem givenNames_map (t : Term α) : (t.map f).givenNames = t.givenNames := by
  cases t <;> simp [map, givenNames, binders, groupBinders, Function.comp_def]

/-- What is `called` in a term with other notes. -/
theorem called_map (t : Term α) : (t.map f).called = t.called.map (map f) := by
  induction t using children_induction with
  | step t ih =>
  cases t with
  | app _ calling => cases calling <;> simp [map, called]
  | letIn _ _ _ body | letRec _ _ _ body => simp [map, called, ih body (by simp [children])]
  | branch _ arms default =>
    have harms : arms.flatMap (fun arm => (arm.2.map f).called) =
        arms.flatMap fun arm => arm.2.called.map (map f) := by
      refine List.flatMap_congr fun arm harm => ih arm.2 ?_
      exact List.mem_append_left _ (List.mem_flatMap.2 ⟨arm, harm, by simp⟩)
    simp [map, called, calledArms_eq, List.flatMap_map, List.map_flatMap, harms,
      ih default (by simp [children])]
  | _ => simp [map, called]

/-- The `leaders` of `t.map f`. -/
theorem leaders_map (t : Term α) : (t.map f).leaders = t.leaders.map (map f) := by
  cases t with
  | abs _ calling => cases calling <;> simp [map, leaders, called_map]
  | branch _ arms => simp [map, leaders, Function.comp_def]
  | _ => simp [map, leaders, called_map]

/-- The `subjects` of `t.map f`. -/
theorem subjects_map (t : Term α) : (t.map f).subjects = t.subjects.map (map f) := by
  cases t with
  | access _ _ accessor => cases accessor <;> simp [map, subjects]
  | test _ _ guard => cases guard <;> simp [map, subjects]
  | _ => simp [map, subjects]

end Term

namespace Lower

open Script Lowering Term

/-- The rule `R` allows what the lowering writes of its own accord. -/
structure Admits (R : Rule) : Prop where
  /-- Names with a dollar sign can be declared. -/
  dollar : ∀ x : String, '$' ∈ x.toList → R.name x
  /-- Names of binders without a name can be declared. -/
  unnamed : ∀ level, R.name (Env.unnamed level)
  /-- All expressions but object literals can stand first. -/
  leader : ∀ e : Script.Expr, e.isObject = false → R.leader e
  /-- Properties of all expressions but integers can be read. -/
  subject : ∀ e : Script.Expr, e.isInt = false → R.subject e

variable {R : Rule} {c : Context}

/-! ## Names -/

/-- The names of the binders `bs` can be declared. -/
def Declarable (R : Rule) (bs : List Binder) : Prop := ∀ x ∈ bs.filterMap Binder.name, R.name x

/-- A name of `freshName base` can be declared if `base` can. -/
theorem Admits.freshName (hR : Admits R) {base : String} (h : R.name base) :
    Gives (freshName base) R.name := by
  intro p
  show R.name (candidate base _)
  unfold candidate
  split
  · exact h
  · exact hR.dollar _ (by simp)

/-- Names of `freshNames bases` can be declared if all `bases` can. -/
theorem Admits.freshNames (hR : Admits R) {bases : List String} (h : ∀ x ∈ bases, R.name x) :
    Gives (freshNames bases) fun xs => ∀ x ∈ xs, R.name x := by
  induction bases with
  | nil => exact .pure (List.forall_mem_nil _)
  | cons base rest ih =>
    obtain ⟨hbase, hrest⟩ := List.forall_mem_cons.1 h
    refine (hR.freshName hbase).bind fun x hx => (ih hrest).map fun xs hxs => ?_
    exact List.forall_mem_cons.2 ⟨hx, hxs⟩

/-- The name that `bindName` gives to `b` can be declared if its own name can. -/
theorem Admits.bindName (hR : Admits R) {b : Binder} (h : Declarable R [b]) :
    Gives (bindName b) R.name := by
  intro p
  obtain ⟨name?, level⟩ := b
  cases name? with
  | none => exact hR.unnamed level
  | some x => exact hR.freshName (h x (by simp)) p

/-- So can those that `bindNames` gives to `bs`. -/
theorem Admits.bindNames (hR : Admits R) {bs : List Binder} (h : Declarable R bs) :
    Gives (bindNames bs) fun xs => ∀ x ∈ xs, R.name x := by
  induction bs with
  | nil => exact .pure (List.forall_mem_nil _)
  | cons b rest ih =>
    obtain ⟨hb, hrest⟩ : Declarable R [b] ∧ Declarable R rest :=
      List.forall_mem_append.1 (by rwa [← List.filterMap_append])
    refine (hR.bindName hb).bind fun x hx => (ih hrest).map fun xs hxs => ?_
    exact List.forall_mem_cons.2 ⟨hx, hxs⟩

/-- Names of `paramBases` for `params` can be declared if `start` has a dollar sign. -/
theorem Admits.paramNames (hR : Admits R) {start : String} (h : '$' ∈ start.toList)
    (params : List Binder) :
    Gives (Lowering.freshNames (paramBases start params)) fun xs => ∀ x ∈ xs, R.name x := by
  refine hR.freshNames fun x hx => hR.dollar x ?_
  obtain ⟨q, -, rfl⟩ := List.mem_map.1 hx
  simp [h]

/-! ## Expressions and statements -/

/-- What the rule `R` says of all ways `K` to lower a term. To run the term as an effect, something
may have to be called, and this must be allowed to stand first: `runs` says that it is. -/
structure Code.Obeys (R : Rule) (runs : Prop) (K : Code) : Prop where
  /-- The expression obeys. -/
  value : Gives K.value (Script.Expr.Obeys R)
  /-- The statement obeys. -/
  returned : Gives K.returned (Stmt.Obeys R)
  /-- The effect obeys. -/
  run : runs → Gives K.run (Script.Expr.Obeys R)
  /-- The block obeys. -/
  block : ∀ mode, (mode.effect = true → runs) → Gives (K.block mode) (BlockObeys R)
  /-- So does the body of a curried function, as the body of a loop. -/
  function : ∀ f, K.function = some f → Declarable R f.1 ∧ Gives f.2 (BlockObeys R)

variable {runs runs' : Prop} {K K' : Code} {value : Lowering Script.Expr}

/-- What has to hold to run a term can be strengthened to `runs'`. -/
theorem Code.Obeys.mono (h : K.Obeys R runs) (hruns : runs' → runs) : K.Obeys R runs' :=
  ⟨h.value, h.returned, fun h' => h.run (hruns h'),
    fun mode h' => h.block mode fun heffect => hruns (h' heffect), h.function⟩

/-- The plain `block` obeys `R` whether the term can be run or not. -/
theorem Code.Obeys.plain (h : K.Obeys R runs) : Gives (K.block .plain) (BlockObeys R) :=
  h.block .plain fun heffect => absurd heffect Bool.false_ne_true

theorem Code.Obeys.looping (h : K.Obeys R runs) : Gives (K.block .looping) (BlockObeys R) :=
  h.block .looping fun heffect => absurd heffect Bool.false_ne_true

/-- A `value` with a `returned` statement of its own. It can be run if the value can stand first. -/
theorem obeys_ofReturn {returned : Lowering Stmt} (hv : Gives value (Script.Expr.Obeys R))
    (hr : Gives returned (Stmt.Obeys R)) :
    (Code.ofReturn value returned).Obeys R (Gives value R.leader) where
  value := hv
  returned := hr
  run h := (hv.and h).map fun e he => by simpa using ⟨he.2, he.1⟩
  block mode h := by
    simp only [Code.ofReturn]
    split
    · rename_i heffect
      exact (hv.and (h heffect)).map fun e he => by simpa using ⟨he.2, he.1⟩
    · exact hr.map fun s hs => by simpa using hs
  function _ h := by cases h

/-- A term that is lowered to an expression by `value`. -/
theorem obeys_ofValue (hv : Gives value (Script.Expr.Obeys R)) :
    (Code.ofValue value).Obeys R (Gives value R.leader) :=
  obeys_ofReturn hv (hv.map fun _ he => Stmt.obeys_ret.2 he)

/-- A term that is lowered to an object literal by `value`. -/
theorem obeys_ofObject (hv : Gives value (Script.Expr.Obeys R)) :
    (Code.ofObject value).Obeys R (Gives value R.leader) :=
  obeys_ofReturn hv (hv.map fun _ he => Stmt.obeys_retObject.2 he)

/-- A block `body` that is called where it stands: a function can stand first. -/
theorem Admits.immediate (hR : Admits R) {body : List Stmt} (h : BlockObeys R body) :
    (Script.Expr.immediate body).Obeys R :=
  Script.Expr.obeys_call.2 ⟨hR.leader _ rfl,
    Script.Expr.obeys_arrow.2 ⟨List.forall_mem_nil _, h⟩, List.forall_mem_nil _⟩

/-- A term that is lowered to statements by `block`. -/
theorem obeys_ofBlock (hR : Admits R) {block : Mode → Lowering (List Stmt)}
    (h : ∀ mode, (mode.effect = true → runs) → Gives (block mode) (BlockObeys R)) :
    (Code.ofBlock block).Obeys R runs := by
  have hplain := h .plain fun heffect => absurd heffect Bool.false_ne_true
  refine ⟨hplain.map fun b hb => hR.immediate hb,
    hplain.map fun b hb => Stmt.obeys_ret.2 (hR.immediate hb),
    fun _ => hplain.map fun b hb => ?_, h, by nofun⟩
  exact Script.Expr.obeys_call.2 ⟨hR.leader _ rfl, hR.immediate hb, List.forall_mem_nil _⟩

/-- An effect can always be run. Where it is not, it is a function of `body`. -/
theorem obeys_ofEffect {body : Lowering (List Stmt)} {run : Lowering Script.Expr}
    {block : Mode → Lowering (List Stmt)} (hbody : Gives body (BlockObeys R))
    (hrun : Gives run (Script.Expr.Obeys R)) (hblock : ∀ mode, Gives (block mode) (BlockObeys R)) :
    (Code.ofEffect body run block).Obeys R True where
  value := hbody.map fun b hb => Script.Expr.obeys_arrow.2 ⟨List.forall_mem_nil _, hb⟩
  returned := hbody.map fun b hb =>
    Stmt.obeys_ret.2 (Script.Expr.obeys_arrow.2 ⟨List.forall_mem_nil _, hb⟩)
  run _ := hrun
  block mode _ := by
    simp only [Code.ofEffect]
    split
    · exact hblock mode
    · exact hbody.map fun b hb => by simpa using hb
  function _ h := by cases h

variable {callee : Lowering Script.Expr} {args : List (Lowering Script.Expr)}

/-- `callEach` calls `callee` with `args` one by one. Only the first call can start with something
else than a call. -/
theorem obeys_callEach (hR : Admits R)
    (hf : Gives callee fun f => f.Obeys R ∧ R.leader f)
    (hargs : ∀ arg ∈ args, Gives arg (Script.Expr.Obeys R)) :
    Gives (callEach callee args) fun f => f.Obeys R ∧ R.leader f := by
  induction args generalizing callee with
  | nil => exact hf
  | cons arg rest ih =>
    rw [callEach, List.foldl_cons]
    refine ih ?_ fun arg' harg' => hargs arg' (List.mem_cons_of_mem _ harg')
    refine hf.bind fun f hf => (hargs arg (List.mem_cons_self ..)).map fun x hx => ?_
    exact ⟨by simpa using ⟨hf.2, hf.1, hx⟩, hR.leader _ rfl⟩

/-- `callAll` calls `callee`, which stands first, with all `args`. -/
theorem obeys_callAll (hf : Gives callee fun f => f.Obeys R ∧ R.leader f)
    (hargs : ∀ arg ∈ args, Gives arg (Script.Expr.Obeys R)) :
    Gives (callAll callee args) (Script.Expr.Obeys R) := by
  refine hf.bind fun f hf => (gives_all hargs).map fun xs hxs => ?_
  exact Script.Expr.obeys_call.2 ⟨hf.2, hf.1, hxs⟩

/-- `jumpStmts` assigns `values` and starts the next round of the loop. -/
theorem blockObeys_jumpStmts {j : Jump} {values : List Script.Expr}
    (h : ∀ e ∈ values, e.Obeys R) : BlockObeys R (jumpStmts j values) := by
  simp only [jumpStmts, blockObeys_append, blockObeys_cons, blockObeys_nil, Stmt.obeys_again,
    and_true]
  refine ⟨fun s hs => ?_, fun s hs => ?_⟩
  · obtain ⟨x, -, rfl⟩ := Option.map_eq_some_iff.1 (Option.mem_toList.1 hs)
    simp [natLit]
  · obtain ⟨q, hq, rfl⟩ := List.mem_map.1 hs
    exact Stmt.obeys_assign.2 (h q.2 (List.of_mem_zip hq).2)

/-- If `jump?` makes statements of a call, they obey. -/
theorem obeys_jump? (r? : Option Ref) (hargs : ∀ arg ∈ args, Gives arg (Script.Expr.Obeys R)) :
    Gives (jump? r? args) fun stmts? => ∀ stmts, stmts? = some stmts → BlockObeys R stmts := by
  cases r? with
  | none => exact .pure (by nofun)
  | some r =>
    refine (Gives.any (jumpTo? r)).bind fun j? _ => ?_
    cases j? with
    | none => exact .pure (by nofun)
    | some j =>
      simp only
      split
      · exact (Gives.any _).bind fun _ _ => .pure (by nofun)
      · split
        · exact (Gives.any _).bind fun _ _ => .pure (by nofun)
        · refine (gives_all hargs).bind fun values hvalues => .pure ?_
          rintro _ ⟨⟩
          exact blockObeys_jumpStmts hvalues

/-- An application of `callee` to `args` one by one can always be run, as a call can stand first. -/
theorem obeys_appCode (hR : Admits R) (r? : Option Ref)
    (hf : Gives callee fun f => f.Obeys R ∧ R.leader f)
    (hargs : ∀ arg ∈ args, Gives arg (Script.Expr.Obeys R)) :
    (appCode r? callee args).Obeys R True := by
  have hcall := obeys_callEach hR hf hargs
  have hplain := (obeys_ofValue (hcall.mono fun _ h => h.1)).mono
    fun _ : True => hcall.mono fun _ h => h.2
  refine ⟨hplain.value, hplain.returned, hplain.run, fun mode hmode => ?_, by nofun⟩
  simp only [appCode]
  split
  · refine (obeys_jump? r? hargs).bind fun stmts? hstmts => ?_
    cases stmts? with
    | none => exact hplain.returned.map fun s hs => by simpa using hs
    | some stmts => exact .pure (hstmts stmts rfl)
  · exact hplain.block mode hmode

/-- `effectAppCode` obeys `R`, also when it is run, if `callee` can stand first. -/
theorem obeys_effectAppCode (hf : Gives callee fun f => f.Obeys R ∧ R.leader f)
    (hargs : ∀ arg ∈ args, Gives arg (Script.Expr.Obeys R)) :
    (effectAppCode callee args).Obeys R True := by
  have hrun := obeys_callAll hf hargs
  have hbody : Gives (do return [.ret (← callAll callee args)]) (BlockObeys R) :=
    hrun.map fun e he => by simpa using he
  exact obeys_ofEffect hbody hrun fun _ => hbody

/-- A curried function of `params`, whose body is a block of `K`. -/
theorem obeys_curriedCode (hR : Admits R) {params : List Binder} (hparams : Declarable R params)
    (h : K.Obeys R runs) : (curriedCode params K).Obeys R True := by
  have hvalue : Gives (do
      let names ← bindNames params
      return Script.Expr.curried names (← K.block .plain))
      fun e => e.Obeys R ∧ R.leader e := by
    refine (hR.bindNames hparams).bind fun names hnames => ?_
    refine h.plain.map fun b hb => ?_
    refine ⟨Script.Expr.obeys_curried hnames hb, hR.leader _ ?_⟩
    cases names with
    | nil => rfl
    | cons x rest => cases rest <;> rfl
  have hplain := (obeys_ofValue (hvalue.mono fun _ h => h.1)).mono
    fun _ : True => hvalue.mono fun _ h => h.2
  refine ⟨hplain.value, hplain.returned, hplain.run, hplain.block, ?_⟩
  rintro _ ⟨⟩
  exact ⟨hparams, h.looping⟩

/-- A function that takes its `params` at once. -/
theorem obeys_arrowCode (hR : Admits R) {params : List Binder} {body : Lowering (List Stmt)}
    (hparams : Declarable R params) (h : Gives body (BlockObeys R)) :
    (arrowCode params body).Obeys R True := by
  have hvalue : Gives (do
      let names ← bindNames params
      return Script.Expr.arrow names (← body)) fun e => e.Obeys R ∧ R.leader e := by
    refine (hR.bindNames hparams).bind fun names hnames => h.map fun b hb => ?_
    exact ⟨Script.Expr.obeys_arrow.2 ⟨hnames, hb⟩, hR.leader _ rfl⟩
  exact (obeys_ofValue (hvalue.mono fun _ h => h.1)).mono
    fun _ => hvalue.mono fun _ h => h.2

/-- `letCode` declares `b` in front of a block of `K'`, which is run if the binding is. -/
theorem obeys_letCode (hR : Admits R) {b : Binder} (hb : Declarable R [b]) (hv : K.Obeys R runs')
    (h : K'.Obeys R runs) : (letCode b K K').Obeys R runs := by
  refine obeys_ofBlock hR fun mode hmode => ?_
  refine hv.value.bind fun e he => (hR.bindName hb).bind fun name hname => ?_
  exact (h.block mode hmode).map fun rest hrest => by simpa using ⟨⟨hname, he⟩, hrest⟩

/-- `bindStmt` runs the effect `e`, and binds the result if `b` has a name. -/
theorem obeys_bindStmt (hR : Admits R) {b : Binder} (hb : Declarable R [b]) {e : Script.Expr}
    (he : e.Obeys R) : Gives (bindStmt b e) (Stmt.Obeys R) := by
  unfold bindStmt
  split
  · exact (hR.bindName hb).map fun _ hname => Stmt.obeys_const.2 ⟨hname, he⟩
  · exact .pure (Stmt.obeys_expr.2 he)

/-- `bindCode` runs `K` in front of a block of `K'`, so it must be possible to run both. -/
theorem obeys_bindCode (hR : Admits R) {b : Binder} (hb : Declarable R [b])
    (he : K.Obeys R runs) (hruns : runs) (h : K'.Obeys R runs') (hruns' : runs') :
    (bindCode b K K').Obeys R True := by
  have hblock (mode : Mode) : Gives (do
      let x ← K.run
      let s ← bindStmt b x
      let rest ← K'.block mode
      return s :: rest) (BlockObeys R) := by
    refine (he.run hruns).bind fun e he => (obeys_bindStmt hR hb he).bind fun s hs => ?_
    exact (h.block mode fun _ => hruns').map fun rest hrest => by simpa using ⟨hs, hrest⟩
  refine obeys_ofEffect (hblock .effectful) ?_ hblock
  exact (hblock .effectful).map fun b hb => hR.immediate hb

/-- `pureCode` is a function that returns what `K` returns. -/
theorem obeys_pureCode (h : K.Obeys R runs) : (pureCode K).Obeys R True := by
  have hbody : Gives (do return [← K.returned]) (BlockObeys R) :=
    h.returned.map fun s hs => by simpa using hs
  exact obeys_ofEffect hbody h.value fun _ => hbody

/-- `deferCode` runs `K` when it is run. -/
theorem obeys_deferCode (hR : Admits R) (h : K.Obeys R runs) (hruns : runs) :
    (deferCode K).Obeys R True := by
  have hblock (mode : Mode) := h.block mode fun _ => hruns
  exact obeys_ofEffect (hblock .effectful)
    ((hblock .effectful).map fun b hb => hR.immediate hb) hblock

/-- `armBlocks` writes the `arms` of a branch with blocks of their own. -/
theorem obeys_armBlocks {mode : Mode} {arms : List (Code × Code)}
    (h : ∀ arm ∈ arms, Gives arm.1.value (Script.Expr.Obeys R) ∧
      Gives (arm.2.block mode) (BlockObeys R)) :
    Gives (armBlocks mode arms)
      fun blocks => ∀ arm ∈ blocks, arm.1.Obeys R ∧ BlockObeys R arm.2 := by
  induction arms with
  | nil => exact .pure (List.forall_mem_nil _)
  | cons arm rest ih =>
    obtain ⟨hcond, hbody⟩ := h arm (List.mem_cons_self ..)
    refine hcond.bind fun e he => hbody.bind fun block hblock => ?_
    refine (ih fun arm' harm' => h arm' (List.mem_cons_of_mem _ harm')).map fun blocks hblocks => ?_
    exact List.forall_mem_cons.2 ⟨⟨he, hblock⟩, hblocks⟩

/-- `conditionalExpr` writes the `arms` of a branch as an expression, which starts with a
condition. -/
theorem obeys_conditionalExpr {arms : List (Code × Code)}
    (h : ∀ arm ∈ arms, Gives arm.1.value (fun e => e.Obeys R ∧ R.leader e) ∧
      Gives arm.2.value (Script.Expr.Obeys R))
    (hdefault : Gives K.value (Script.Expr.Obeys R)) :
    Gives (conditionalExpr arms K) (Script.Expr.Obeys R) := by
  induction arms with
  | nil => exact hdefault
  | cons arm rest ih =>
    obtain ⟨hcond, hbody⟩ := h arm (List.mem_cons_self ..)
    refine hcond.bind fun e he => hbody.bind fun yes hyes => ?_
    refine (ih fun arm' harm' => h arm' (List.mem_cons_of_mem _ harm')).map fun no hno => ?_
    simpa using ⟨he.2, he.1, hyes, hno⟩

/-- `branchCode` can be run as an effect if its conditional expression can stand first and what is
run in `arms` and in the default `K` can. -/
theorem obeys_branchCode (hR : Admits R) {simple : Bool} {arms : List (Code × Code)}
    (hcond : ∀ arm ∈ arms, Gives arm.1.value fun e => e.Obeys R ∧ R.leader e)
    (hbody : ∀ arm ∈ arms, arm.2.Obeys R runs) (hdefault : K.Obeys R runs) :
    (branchCode simple arms K).Obeys R
      (Gives (branchCode simple arms K).value R.leader ∧ runs) := by
  have hblock (mode : Mode) (hmode : mode.effect = true → runs) : Gives (do
      let blocks ← armBlocks mode arms
      let rest ← K.block mode
      return (if blocks.isEmpty then [] else [Stmt.chain blocks]) ++ rest) (BlockObeys R) := by
    refine Gives.bind (obeys_armBlocks fun arm harm =>
      ⟨(hcond arm harm).mono fun _ h => h.1, (hbody arm harm).block mode hmode⟩)
      fun blocks hblocks => ?_
    refine (hdefault.block mode hmode).map fun rest hrest => ?_
    cases blocks with
    | nil => exact hrest
    | cons arm blocks => exact blockObeys_cons.2 ⟨Stmt.obeys_chain.2 hblocks, hrest⟩
  unfold branchCode
  split
  · have hvalue := obeys_ofValue (obeys_conditionalExpr
      (fun arm harm => ⟨hcond arm harm, (hbody arm harm).value⟩) hdefault.value)
    exact ⟨hvalue.value, hvalue.returned, fun h => hvalue.run h.1,
      fun mode h => hblock mode fun heffect => (h heffect).2, by nofun⟩
  · exact (obeys_ofBlock hR hblock).mono fun h => h.2

/-! ## Recursive groups -/

/-- `declareValues` writes a `declaration` for each of `bindings`. -/
theorem obeys_declareValues {declaration : String → Script.Expr → Stmt}
    (hdeclaration : ∀ x e, R.name x → e.Obeys R → (declaration x e).Obeys R)
    {bindings : List (String × Code)} (hnames : ∀ x ∈ bindings.map Prod.fst, R.name x)
    (h : ∀ b ∈ bindings, Gives b.2.value (Script.Expr.Obeys R)) :
    Gives (declareValues declaration bindings) (BlockObeys R) := by
  induction bindings with
  | nil => exact .pure blockObeys_nil
  | cons b rest ih =>
    obtain ⟨hname, hnames⟩ := List.forall_mem_cons.1 hnames
    refine (h b (List.mem_cons_self ..)).bind fun e he => ?_
    refine (ih hnames fun b' hb' => h b' (List.mem_cons_of_mem _ hb')).map fun others hothers => ?_
    exact blockObeys_cons.2 ⟨hdeclaration b.1 e hname he, hothers⟩

/-- `recursiveDeclarations` of `bindings` that are no loop. -/
theorem obeys_recursiveDeclarations (functions : Bool) {bindings : List (String × Code)}
    (hnames : ∀ x ∈ bindings.map Prod.fst, R.name x)
    (h : ∀ b ∈ bindings, Gives b.2.value (Script.Expr.Obeys R)) :
    Gives (recursiveDeclarations functions bindings) (BlockObeys R) := by
  unfold recursiveDeclarations
  split
  · exact obeys_declareValues (fun _ _ hx he => Stmt.obeys_const.2 ⟨hx, he⟩) hnames h
  · refine (obeys_declareValues (fun _ _ _ he => Stmt.obeys_assign.2 he) hnames h).map
      fun assigns hassigns => blockObeys_append.2 ⟨fun s hs => ?_, hassigns⟩
    obtain ⟨b, hb, rfl⟩ := List.mem_map.1 hs
    exact Stmt.obeys_declare.2 (hnames b.1 (List.mem_map_of_mem hb))

/-- What the rule `R` says of a member `m` of a loop. -/
structure Member.Obeys (R : Rule) (m : Member) : Prop where
  /-- Its name can be declared. -/
  ident : R.name m.ident
  /-- So can those of its parameters. -/
  params : Declarable R m.params
  /-- Its body obeys. -/
  body : Gives m.body (BlockObeys R)

/-- `bindParams` declares constants for `params` with the values of `slots`. -/
theorem obeys_bindParams (hR : Admits R) {params : List Binder} (h : Declarable R params)
    (slots : List String) : Gives (bindParams params slots) (BlockObeys R) := by
  fun_induction bindParams params slots with
  | case1 b params slot slots ih =>
    obtain ⟨hb, hrest⟩ : Declarable R [b] ∧ Declarable R params :=
      List.forall_mem_append.1 (by rwa [← List.filterMap_append])
    refine (hR.bindName hb).bind fun name hname => (ih hrest).map fun rest hrest => ?_
    simpa using ⟨hname, hrest⟩
  | case2 => exact .pure blockObeys_nil

/-- `memberBody` puts these in front of the body of `m`. -/
theorem obeys_memberBody (hR : Admits R) {m : Member} (slots : List String) (h : m.Obeys R) :
    Gives (memberBody m slots) (BlockObeys R) := by
  refine (obeys_bindParams hR h.params slots).bind fun binds hbinds => ?_
  refine h.body.map fun body hbody => ?_
  exact blockObeys_append.2 ⟨hbinds, hbody⟩

/-- `dispatchBody` writes the bodies of all `members` behind tests of the `selector`. -/
theorem obeys_dispatchBody (hR : Admits R) {selector : String} {slots : List String} {i : Nat}
    {members : List Member} (h : ∀ m ∈ members, m.Obeys R) :
    Gives (dispatchBody selector slots i members) (BlockObeys R) := by
  induction members generalizing i with
  | nil => exact .pure blockObeys_nil
  | cons m rest ih =>
    have hfirst := obeys_memberBody hR slots (h m (List.mem_cons_self ..))
    cases rest with
    | nil => exact hfirst
    | cons m' rest =>
      refine hfirst.bind fun block hblock => ?_
      refine (ih fun x hx => h x (List.mem_cons_of_mem _ hx)).map fun others hothers => ?_
      refine blockObeys_cons.2
        ⟨Stmt.obeys_chain.2 (List.forall_mem_singleton.2 ⟨?_, hblock⟩), hothers⟩
      simpa [natLit] using hR.leader (.ident selector) rfl

/-- `selfLoop` makes a loop of a single function `m`. Its variables have dollar signs. -/
theorem obeys_selfLoop (hR : Admits R) {m : Member} (h : m.Obeys R) :
    Gives (selfLoop m) (Script.Expr.Obeys R) := by
  have hlabel : Gives (Lowering.freshName ("$" ++ m.ident)) fun x => '$' ∈ x.toList :=
    fun p => dollar_mem_freshName (by simp) p
  refine hlabel.bind fun label hlabel => ?_
  refine (hR.paramNames (by decide) m.params).bind fun copies hcopies => ?_
  refine (hR.paramNames (by simp [hlabel]) m.params).bind fun slots hslots => ?_
  refine (gives_inLoop (obeys_memberBody hR slots h)).map fun body hbody => ?_
  refine Script.Expr.obeys_curried hcopies
    (blockObeys_append.2 ⟨fun s hs => ?_, by simpa using hbody⟩)
  obtain ⟨q, hq, rfl⟩ := List.mem_map.1 hs
  simpa using hslots q.1 (List.of_mem_zip hq).1

/-- `entries` writes the functions that enter a shared loop. -/
theorem obeys_entries (hR : Admits R) (label : String) (i : Nat) {members : List Member}
    (h : ∀ m ∈ members, m.Obeys R) : Gives (entries label i members) (BlockObeys R) := by
  induction members generalizing i with
  | nil => exact .pure blockObeys_nil
  | cons m rest ih =>
    obtain ⟨hm, hrest⟩ := List.forall_mem_cons.1 h
    refine (hR.paramNames (by decide) m.params).bind fun copies hcopies => ?_
    refine (ih (i + 1) hrest).map fun others hothers => blockObeys_cons.2 ⟨?_, hothers⟩
    refine Stmt.obeys_const.2 ⟨hm.ident, Script.Expr.obeys_curried hcopies ?_⟩
    simpa [natLit] using hR.leader (.ident label) rfl

/-- `sharedLoop` makes one loop of several `members`. -/
theorem obeys_sharedLoop (hR : Admits R) {members : List Member} {label : String}
    (hlabel : '$' ∈ label.toList) (h : ∀ m ∈ members, m.Obeys R) :
    Gives (sharedLoop members label) (BlockObeys R) := by
  have hselector := hR.freshName (hR.dollar (label ++ "_fn") (by simp [hlabel]))
  refine hselector.bind fun selector hselector => ?_
  refine Gives.bind (hR.freshNames fun x hx => ?_) fun slots hslots => ?_
  · obtain ⟨i, -, rfl⟩ := List.mem_map.1 hx
    exact hR.dollar _ (by simp [hlabel])
  refine (gives_inLoop (obeys_dispatchBody hR h)).bind fun body hbody => ?_
  refine (obeys_entries hR label 0 h).map fun rest hrest => blockObeys_cons.2 ⟨?_, hrest⟩
  refine Stmt.obeys_const.2 ⟨hR.dollar label hlabel, Script.Expr.obeys_arrow.2 ⟨?_, by simpa⟩⟩
  exact List.forall_mem_cons.2 ⟨hselector, hslots⟩

/-- `loopDeclarations` writes the loop of `members`, be it one or several. -/
theorem obeys_loopDeclarations (hR : Admits R) {members : List Member} {dispatcher : Option String}
    (hdispatcher : ∀ label, dispatcher = some label → '$' ∈ label.toList)
    (h : ∀ m ∈ members, m.Obeys R) :
    Gives (loopDeclarations members dispatcher) (BlockObeys R) := by
  unfold loopDeclarations
  split
  · rename_i m
    have hm := h m (List.mem_singleton.2 rfl)
    refine (Gives.any _).bind fun _ _ => (obeys_selfLoop hR hm).map fun function hfunction => ?_
    simpa using ⟨hm.ident, hfunction⟩
  · have hlabel : Gives (sharedLabel members dispatcher) fun label => '$' ∈ label.toList := by
      cases dispatcher with
      | some label => exact .pure (hdispatcher label rfl)
      | none => exact fun p => dollar_mem_freshName (by simp) p
    rw [groupLoop_eq]
    refine (Gives.any _).bind fun _ _ => hlabel.bind fun label hlabel => ?_
    exact obeys_sharedLoop hR hlabel h

/-- The loop of a group of functions, which `loopMembers?` finds. -/
theorem obeys_loopGroup (hR : Admits R) {idents : List String} {refs : List Ref}
    {ts : List Analyzed} {members : List Member} {dispatcher : Option String}
    (hdispatcher : ∀ label, dispatcher = some label → '$' ∈ label.toList)
    (hidents : ∀ x ∈ idents, R.name x) {runs : Analyzed → Prop}
    (h : ∀ t ∈ ts, (code c t).Obeys R (runs t))
    (hmembers : loopMembers? idents refs (ts.map (code c)) = some members) :
    Gives (loopDeclarations members dispatcher) (BlockObeys R) := by
  rw [loopMembers?_eq] at hmembers
  split at hmembers
  · rename_i hall
    obtain rfl := Option.some.inj hmembers
    refine obeys_loopDeclarations hR hdispatcher fun m hm => ?_
    obtain ⟨p, hp, rfl⟩ := List.mem_map.1 hm
    have hfunction := function_code c p.2
    rw [if_pos (List.all_eq_true.1 hall p hp)] at hfunction
    obtain ⟨hparams, hbody⟩ := (h p.2 (List.of_mem_zip hp).2).function _ hfunction
    exact ⟨hidents p.1.1 (List.of_mem_zip (List.of_mem_zip hp).1).1, hparams, hbody⟩
  · cases hmembers

/-- `groupDeclarations` of a recursive group `ts`, which may be a loop. -/
theorem obeys_groupDeclarations (hR : Admits R) {loop functions : Bool} {refs : List Ref}
    {binders : List Binder} {ts : List Analyzed} (hbinders : Declarable R binders)
    {runs : Analyzed → Prop} (h : ∀ t ∈ ts, (code c t).Obeys R (runs t)) :
    Gives (groupDeclarations loop functions refs binders (ts.map (code c))) (BlockObeys R) := by
  refine (hR.bindNames hbinders).bind fun idents hidents => ?_
  split
  · rename_i members hmembers
    exact obeys_loopGroup hR (by nofun) hidents h hmembers
  · refine obeys_recursiveDeclarations functions (fun x hx => ?_) fun b hb => ?_
    · obtain ⟨b, hb, rfl⟩ := List.mem_map.1 hx
      exact hidents b.1 (List.of_mem_zip hb).1
    · obtain ⟨t, ht, heq⟩ := List.mem_map.1 (List.of_mem_zip hb).2
      exact heq ▸ (h t ht).value

/-! ## Terms -/

/-- The values of the terms `ts` can stand first. -/
def Lead (R : Rule) (c : Context) (ts : List Analyzed) : Prop :=
  ∀ t ∈ ts, Gives (code c t).value R.leader

/-- What the rule `R` asks of a node `t` of a term. -/
structure FitsRule (R : Rule) (c : Context) (t : Analyzed) : Prop where
  /-- The names that the node gives can be declared. -/
  names : ∀ x ∈ t.givenNames, R.name x
  /-- What stands first can do so. -/
  leaders : Lead R c t.leaders
  /-- What properties are read from can have them. -/
  subjects : ∀ s ∈ t.subjects, Gives (code c s).value R.subject

/-- `fieldCodes` writes the parts of an object literal. -/
theorem obeys_fieldCodes {fields : List (String × Analyzed)}
    (h : ∀ s ∈ fields.map Prod.snd, Gives (code c s).value (Script.Expr.Obeys R)) :
    Gives (all (fieldCodes c fields)) fun fs => ∀ f ∈ fs, f.Obeys R := by
  rw [fieldCodes_eq_map]
  refine gives_all fun m hm => ?_
  obtain ⟨f, hf, rfl⟩ := List.mem_map.1 hm
  exact (h f.2 (List.mem_map.2 ⟨f, hf, rfl⟩)).map fun e he => he

/-- `valueCodes` writes the terms `ts` as expressions. -/
theorem obeys_valueCodes {ts : List Analyzed}
    (h : ∀ t ∈ ts, Gives (code c t).value (Script.Expr.Obeys R)) :
    ∀ m ∈ valueCodes c ts, Gives m (Script.Expr.Obeys R) := by
  rw [valueCodes_eq_map]
  intro m hm
  obtain ⟨t, ht, rfl⟩ := List.mem_map.1 hm
  exact h t ht

/-- The expression `globalExpr c q` of a top-level name is an identifier or a property of one. -/
theorem Admits.globalExpr (hR : Admits R) (q : Qualified) : (globalExpr c q).Obeys R := by
  have haccess (x y : String) : (Script.Expr.access (.ident x) y).Obeys R :=
    Script.Expr.obeys_access.2 ⟨⟨hR.leader _ rfl, hR.subject _ rfl⟩, Script.Expr.obeys_ident x⟩
  unfold Lower.globalExpr
  split
  · exact haccess _ _
  · split
    · exact haccess _ _
    · exact Script.Expr.obeys_ident _

/-- The function of a constructor obeys if the names of its `params` can be declared. -/
theorem Admits.constructorExpr {tag : String} {fields params : List String}
    (h : ∀ x ∈ params, R.name x) : (constructorExpr tag fields params).Obeys R := by
  have hobject : (Script.Expr.object (tagField tag ::
      (fields.zip params).map fun p => .field p.1 (.ident p.2))).Obeys R := by
    refine Script.Expr.obeys_object.2 (List.forall_mem_cons.2 ⟨by simp [tagField], ?_⟩)
    exact List.forall_mem_map.2 fun _ _ => by simp
  unfold Lower.constructorExpr
  split
  · exact hobject
  · exact Script.Expr.obeys_curried h (by simpa using hobject)

/-! ### Lists and fields -/

section

variable {a : Analysis}

/-- The `items` of an array. -/
theorem obeys_array {items : List Analyzed}
    (h : ∀ s ∈ items, Gives (code c s).value (Script.Expr.Obeys R)) :
    (code c (.array a items)).Obeys R (Gives (code c (.array a items)).value R.leader) :=
  obeys_ofValue ((gives_all (obeys_valueCodes h)).map fun _ hes => Script.Expr.obeys_array.2 hes)

variable {fields : List (String × Analyzed)}
  (h : ∀ s ∈ fields.map Prod.snd, Gives (code c s).value (Script.Expr.Obeys R))

include h

/-- The `fields` of a record. -/
theorem obeys_record :
    (code c (.record a fields)).Obeys R (Gives (code c (.record a fields)).value R.leader) :=
  obeys_ofObject ((obeys_fieldCodes h).map fun _ hfs => Script.Expr.obeys_object.2 hfs)

/-- The `fields` of a constructor that is applied, after its `tag`. -/
theorem obeys_construct {type : Qualified} {tag : String} :
    (code c (.construct a type tag fields)).Obeys R
      (Gives (code c (.construct a type tag fields)).value R.leader) := by
  refine obeys_ofObject ((obeys_fieldCodes h).map fun fs hfs => ?_)
  exact Script.Expr.obeys_object.2 (List.forall_mem_cons.2 ⟨by simp [tagField], hfs⟩)

/-- A record that is `subject` but for its `fields`. -/
theorem obeys_update {subject : Analyzed}
    (hsubject : Gives (code c subject).value (Script.Expr.Obeys R)) :
    (code c (.update a subject fields)).Obeys R
      (Gives (code c (.update a subject fields)).value R.leader) := by
  refine obeys_ofObject (hsubject.bind fun e he => (obeys_fieldCodes h).map fun fs hfs => ?_)
  exact Script.Expr.obeys_object.2 (List.forall_mem_cons.2 ⟨by simpa using he, hfs⟩)

end

/-! ### Operators -/

section

variable {a : Analysis} {t : Analyzed}

/-- What `accessor` reads from a value, which stands first. -/
theorem obeys_access {accessor : Accessor}
    (h : Gives (code c t).value fun e => e.Obeys R ∧ R.leader e)
    (hsubjects : ∀ s ∈ (Term.access a t accessor).subjects, Gives (code c s).value R.subject) :
    (code c (.access a t accessor)).Obeys R
      (Gives (code c (.access a t accessor)).value R.leader) := by
  refine obeys_ofValue ?_
  cases accessor with
  | index i => exact h.map fun e he => by simpa [accessExpr, wordLit] using ⟨he.2, he.1⟩
  | property | field =>
    have hread := h.and (hsubjects t (List.mem_singleton.2 rfl))
    exact hread.map fun e he => Script.Expr.obeys_access.2 ⟨⟨he.1.2, he.2⟩, he.1.1⟩

/-- Whether a value, which stands first, passes `guard`. -/
theorem obeys_test (hR : Admits R) {guard : Guard}
    (h : Gives (code c t).value fun e => e.Obeys R ∧ R.leader e)
    (hsubjects : ∀ s ∈ (Term.test a t guard).subjects, Gives (code c s).value R.subject) :
    (code c (.test a t guard)).Obeys R (Gives (code c (.test a t guard)).value R.leader) := by
  refine obeys_ofValue ?_
  cases guard with
  | boolean value => exact h.map fun e he => by cases value <;> simpa [testExpr] using he.1
  | tag | length =>
    have hread := h.and (hsubjects t (List.mem_singleton.2 rfl))
    refine hread.map fun e he => Script.Expr.obeys_binary.2 ⟨hR.leader _ rfl, ?_, ?_⟩
    · exact Script.Expr.obeys_access.2 ⟨⟨he.1.2, he.2⟩, he.1.1⟩
    · simp [wordLit]
  | _ => exact h.map fun e he => by simpa [testExpr] using ⟨he.2, he.1⟩

/-- `unary` obeys `R` if its operand, which stands after the operator, does. -/
theorem obeys_unary {op : UnaryOp} (h : Gives (code c t).value (Script.Expr.Obeys R)) :
    (code c (.unary a op t)).Obeys R (Gives (code c (.unary a op t)).value R.leader) :=
  obeys_ofValue (h.map fun _ he => Script.Expr.obeys_unary.2 he)

/-- `binary` obeys `R` if its operands do and the left one, which stands first, can be a leader. -/
theorem obeys_binary {op : BinaryOp} {t' : Analyzed}
    (h : Gives (code c t).value fun e => e.Obeys R ∧ R.leader e)
    (h' : Gives (code c t').value (Script.Expr.Obeys R)) :
    (code c (.binary a op t t')).Obeys R (Gives (code c (.binary a op t t')).value R.leader) :=
  obeys_ofValue (h.bind fun _ he => h'.map fun _ he' =>
    Script.Expr.obeys_binary.2 ⟨he.2, he.1, he'⟩)

end

/-! ### Groups and branches -/

/-- A recursive group, whose `bindings` are declared before its `body`. -/
theorem obeys_letRec (hR : Admits R) {a : Analysis} {level : UInt32}
    {bindings : List (String × Analyzed)} {body : Analyzed} {runs : Prop}
    {runsOf : Analyzed → Prop} (hnames : Declarable R (groupBinders level bindings))
    (h : ∀ s ∈ bindings.map Prod.snd, (code c s).Obeys R (runsOf s))
    (hbody : (code c body).Obeys R runs) :
    (code c (.letRec a level bindings body)).Obeys R runs := by
  rw [code, bindingCodes_eq]
  refine obeys_ofBlock hR fun mode hmode => ?_
  refine (obeys_groupDeclarations hR hnames h).bind fun decls hdecls => ?_
  exact (hbody.block mode hmode).map fun rest hrest => blockObeys_append.2 ⟨hdecls, hrest⟩

/-- A branch of `arms` and `default`. What is called in them when they are run is called in the
branch. -/
theorem obeys_branch (hR : Admits R) {a : Analysis} {arms : List (Analyzed × Analyzed)}
    {default : Analyzed}
    (hcond : ∀ arm ∈ arms, Gives (code c arm.1).value fun e => e.Obeys R ∧ R.leader e)
    (hbody : ∀ arm ∈ arms, (code c arm.2).Obeys R (Lead R c arm.2.called))
    (hdefault : (code c default).Obeys R (Lead R c default.called)) :
    (code c (.branch a arms default)).Obeys R
      (Lead R c (Term.branch a arms default).called) := by
  have hlead (h : Lead R c (Term.branch a arms default).called) :
      Gives (code c (.branch a arms default)).value R.leader ∧
        (∀ arm ∈ arms, Lead R c arm.2.called) ∧ Lead R c default.called := by
    obtain ⟨hself, h⟩ := List.forall_mem_cons.1 h
    obtain ⟨harms, hdefault⟩ := List.forall_mem_append.1 h
    rw [calledArms_eq] at harms
    exact ⟨hself, fun arm h s hs => harms s (List.mem_flatMap.2 ⟨arm, h, hs⟩), hdefault⟩
  rw [code, armCodes_eq_map] at hlead ⊢
  refine Code.Obeys.mono (obeys_branchCode hR ?_ ?_ ?_) hlead
  · exact List.forall_mem_map.2 hcond
  · exact List.forall_mem_map.2 fun arm h => (hbody arm h).mono fun hruns => hruns.1 arm h
  · exact hdefault.mono fun hruns => hruns.2

/-! ### All terms -/

/-- If every node of `t` fits the rule, all ways to lower `t` obey. -/
theorem obeys_code (hR : Admits R) (t : Analyzed) (hfits : ∀ s ∈ t.subterms, FitsRule R c s) :
    (code c t).Obeys R (Lead R c t.called) := by
  induction t using children_induction with
  | step t ih =>
  have hchild (s : Analyzed) (hs : s ∈ t.children) : (code c s).Obeys R (Lead R c s.called) :=
    ih s hs fun u hu => hfits u (mem_subterms_iff.2 (.inr ⟨s, hs, hu⟩))
  have hvalue (s : Analyzed) (hs : s ∈ t.children) :
      Gives (code c s).value (Script.Expr.Obeys R) := (hchild s hs).value
  have hroot : FitsRule R c t := hfits t (mem_subterms_iff.2 (.inl rfl))
  -- a child that stands first
  have hleader (s : Analyzed) (hs : s ∈ t.children) (hlead : s ∈ t.leaders) :
      Gives (code c s).value fun e => e.Obeys R ∧ R.leader e :=
    (hvalue s hs).and (hroot.leaders s hlead)
  -- a node that is called itself when it is run
  have hself (hcalled : t.called = [t])
      (h : (code c t).Obeys R (Gives (code c t).value R.leader)) :
      (code c t).Obeys R (Lead R c t.called) := h.mono fun hlead => hlead t (by simp [hcalled])
  cases t with
  | global a q => exact hself rfl (obeys_ofValue (.pure (hR.globalExpr q)))
  | bound a b => exact hself rfl (obeys_ofValue ((Gives.any (nameOf b)).map fun _ _ => by simp))
  | lit a value => exact hself rfl (obeys_ofValue (.pure (by cases value <;> simp [literalExpr])))
  | constructor a tag fields =>
    refine hself rfl (obeys_ofValue ((hR.freshNames hroot.names).map fun names hnames => ?_))
    exact Admits.constructorExpr hnames
  | undefined a => exact hself rfl (obeys_ofReturn (.pure (by simp)) (.pure (by simp)))
  | fail a message => exact (obeys_ofBlock hR fun _ _ => .pure (by simp [failure])).mono id
  | array => exact hself rfl (obeys_array hvalue)
  | record => exact hself rfl (obeys_record hvalue)
  | construct => exact hself rfl (obeys_construct hvalue)
  | update a subject fields =>
    exact hself rfl (obeys_update (fun s hs => hvalue s (List.mem_cons_of_mem _ hs))
      (hvalue subject (List.mem_cons_self ..)))
  | access a subject =>
    have hsubject := hleader subject (List.mem_singleton.2 rfl) (List.mem_singleton.2 rfl)
    exact hself rfl (obeys_access hsubject hroot.subjects)
  | test a subject =>
    have hsubject := hleader subject (List.mem_singleton.2 rfl) (List.mem_singleton.2 rfl)
    exact hself rfl (obeys_test hR hsubject hroot.subjects)
  | unary a op operand => exact hself rfl (obeys_unary (hvalue operand (List.mem_singleton.2 rfl)))
  | binary a op left right =>
    exact hself rfl (obeys_binary (hleader left (by simp [children]) (List.mem_singleton.2 rfl))
      (hvalue right (by simp [children])))
  | app a calling head args =>
    have hhead := hleader head (List.mem_cons_self ..) (List.mem_singleton.2 rfl)
    have hargs := obeys_valueCodes fun u hu => hvalue u (List.mem_cons_of_mem _ hu)
    cases calling with
    | curried => exact (obeys_appCode hR _ hhead hargs).mono fun _ => trivial
    | uncurried => exact hself rfl (obeys_ofValue (obeys_callAll hhead hargs))
    | effectful => exact (obeys_effectAppCode hhead hargs).mono fun _ => trivial
  | abs a calling params body =>
    have hbody := hchild body (List.mem_singleton.2 rfl)
    cases calling with
    | curried => exact (obeys_curriedCode hR hroot.names hbody).mono fun _ => trivial
    | uncurried =>
      exact (obeys_arrowCode hR hroot.names hbody.plain).mono fun _ => trivial
    | effectful =>
      exact (obeys_arrowCode hR hroot.names (hbody.block .effectful fun _ => hroot.leaders)).mono
        fun _ => trivial
  | letIn a b value body =>
    exact obeys_letCode hR hroot.names (hchild value (by simp [children]))
      (hchild body (by simp [children]))
  | letRec a level bindings body =>
    exact obeys_letRec hR hroot.names (fun s hs => hchild s (List.mem_append_left _ hs))
      (hchild body (by simp [children]))
  | bindEffect a b effect body =>
    -- the effect and what follows it are both run, so both are leaders
    obtain ⟨heffect, hbody⟩ := List.forall_mem_append.1 hroot.leaders
    have hb : Declarable R [b] := fun x hx => hroot.names x (by
      show x ∈ (resultBinders b).filterMap Binder.name
      rwa [filterMap_resultBinders])
    exact (obeys_bindCode hR hb
      (hchild effect (by simp [children])) heffect (hchild body (by simp [children])) hbody).mono
      fun _ => trivial
  | pureEffect a value =>
    exact (obeys_pureCode (hchild value (List.mem_singleton.2 rfl))).mono fun _ => trivial
  | deferEffect a effect =>
    exact (obeys_deferCode hR (hchild effect (List.mem_singleton.2 rfl)) hroot.leaders).mono
      fun _ => trivial
  | branch a arms default =>
    have harm (arm : Analyzed × Analyzed) (h : arm ∈ arms) (s : Analyzed)
        (hs : s ∈ [arm.1, arm.2]) : s ∈ (Term.branch a arms default).children :=
      List.mem_append_left _ (List.mem_flatMap.2 ⟨arm, h, hs⟩)
    -- the condition stands first in a conditional expression, the body does not
    refine obeys_branch hR (fun arm h => ?_) (fun arm h => ?_)
      (hchild default (by simp [children]))
    · exact hleader arm.1 (harm arm h _ (by simp)) (List.mem_map_of_mem h)
    · exact hchild arm.2 (harm arm h _ (by simp))

/-! ## Units -/

/-- The declarations of a top-level group `g` obey if its terms do. -/
theorem obeys_group (hR : Admits R) (hshares : c.SharesWell) (g : AnalyzedGroup)
    (hnames : ∀ x ∈ g.bindings.map Prod.fst, R.name x) {runs : Analyzed → Prop}
    (h : ∀ t ∈ g.bindings.map Prod.snd, (code c t).Obeys R (runs t)) :
    BlockObeys R (group c g).result := by
  unfold group
  split
  · rename_i members _ hmembers
    rw [topMembers?, bindingCodes_eq] at hmembers
    refine obeys_loopGroup hR (fun label hlabel => ?_) hnames h hmembers _
    obtain ⟨b, -, hb⟩ := Option.bind_eq_some_iff.1 hlabel
    exact (hshares b.1 label hb).2
  · intro s hs
    rw [Outcome.result_concat, List.mem_flatMap] at hs
    obtain ⟨o, ho, hs⟩ := hs
    obtain ⟨b, hb, rfl⟩ := List.mem_map.1 ho
    obtain rfl := List.mem_singleton.1 hs
    exact Stmt.obeys_const.2 ⟨hnames b.1 (List.mem_map_of_mem hb),
      (h b.2 (List.mem_map_of_mem hb)).value _⟩

/-- If the names of the bindings of `u` can be declared and all nodes of the bindings fit, then the
declarations of `u` obey. -/
theorem obeys_module (hR : Admits R) (u : CompilationUnit) (loops : Bool)
    (hnames : ∀ b ∈ u.bindings, R.name b.1)
    (hfits : ∀ b ∈ u.bindings, ∀ s : Analyzed, s.erase ∈ b.2.subterms →
      FitsRule R (.ofUnit u loops) s) :
    BlockObeys R (Lower.module u loops).result.declarations := by
  rw [declarations_module]
  intro s hs
  obtain ⟨g', hg', hs⟩ := List.mem_flatMap.1 hs
  obtain ⟨g, hg, rfl⟩ := List.mem_map.1 hg'
  have hmem {b : String × Expr} (hb : b ∈ g.bindings) : b ∈ u.bindings :=
    List.mem_flatMap.2 ⟨g, hg, hb⟩
  have hcodes (t : Analyzed) (ht : t ∈ (g.analyze u.name).bindings.map Prod.snd) :
      (code (.ofUnit u loops) t).Obeys R (Lead R (.ofUnit u loops) t.called) := by
    obtain ⟨b, hb, rfl⟩ := BindingGroup.exists_of_mem_analyze ht
    exact obeys_code hR _ fun v hv => hfits b (hmem hb) v (erase_mem_subterms hv)
  refine obeys_group hR (Context.sharesWell_ofUnit u loops).1 _ (fun x hx => ?_) hcodes s hs
  rw [BindingGroup.map_fst_analyze] at hx
  obtain ⟨b, hb, rfl⟩ := List.mem_map.1 hx
  exact hnames b (hmem hb)

end Lower

end TailLoop
