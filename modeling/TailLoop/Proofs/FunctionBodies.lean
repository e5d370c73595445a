import TailLoop.Proofs.BlockEnds

/-!
# Bodies of functions

Every function in the script of a unit has a body that ends, or one that ends with a loop whose body
does. For the body of a loop this needs that groups which are flagged as loops have members.

* `Script.bodiesIn`: the bodies of all functions in a block.
* `Code.Closed`: all ways to lower a term write functions with such bodies only.
* `blocks_end`: the blocks of all terms and the bodies of all functions end.
-/

namespace TailLoop.Script

mutual

/-- The bodies of the functions in `e`, nested ones included. -/
def Expr.bodies : Expr → List (List Stmt)
  | .ident _ | .int _ | .number _ | .text _ | .boolean _ | .undefined => []
  | .array items => exprsBodies items
  | .object fields => fieldsBodies fields
  | .access object _ => object.bodies
  | .index object position => object.bodies ++ position.bodies
  | .call callee args | .new callee args => callee.bodies ++ exprsBodies args
  | .arrow _ body => body :: bodiesIn body
  | .unary _ operand => operand.bodies
  | .binary _ left right => left.bodies ++ right.bodies
  | .conditional test yes no => test.bodies ++ (yes.bodies ++ no.bodies)

/-- `Expr.bodies` of expressions, in order. -/
def exprsBodies : List Expr → List (List Stmt)
  | [] => []
  | e :: rest => e.bodies ++ exprsBodies rest

/-- `Expr.bodies` of the value of a `Field`. -/
def Field.bodies : Field → List (List Stmt)
  | .field _ value | .spread value => value.bodies

/-- `Field.bodies` of the parts of an object literal, in order. -/
def fieldsBodies : List Field → List (List Stmt)
  | [] => []
  | f :: rest => f.bodies ++ fieldsBodies rest

/-- The bodies of the functions in `s`, nested ones included. -/
def Stmt.bodies : Stmt → List (List Stmt)
  | .const _ value | .assign _ value | .expr value | .ret value | .retObject value
  | .throw value => value.bodies
  | .declare _ (some value) => value.bodies
  | .declare _ none | .again | .retUndefined => []
  | .chain arms => armsBodies arms
  | .loop body => bodiesIn body

/-- `Stmt.bodies` of the statements of `block`, in order. -/
def bodiesIn : List Stmt → List (List Stmt)
  | [] => []
  | s :: rest => s.bodies ++ bodiesIn rest

/-- The bodies of the functions in the conditions and the blocks of a `chain`. -/
def armsBodies : List (Expr × List Stmt) → List (List Stmt)
  | [] => []
  | (cond, block) :: rest => cond.bodies ++ (bodiesIn block ++ armsBodies rest)

end

/-- The block `body` of a function `ends`, or it ends with a loop whose body does. -/
def BodyEnds (body : List Stmt) : Prop :=
  ends body = true ∨ ∃ pre inner, body = pre ++ [.loop inner] ∧
    (∀ s ∈ pre, s.isTerminator = false) ∧ ends inner = true

/-- The bodies of all functions in `e` end. -/
def Expr.Closed (e : Expr) : Prop := ∀ body ∈ e.bodies, BodyEnds body

/-- The bodies of all functions in the part `f` of an object literal end. -/
def Field.Closed (f : Field) : Prop := ∀ body ∈ f.bodies, BodyEnds body

/-- The bodies of all functions in `s` end. -/
def Stmt.Closed (s : Stmt) : Prop := ∀ body ∈ s.bodies, BodyEnds body

/-- The bodies of all functions in `block` end. -/
def BlockClosed (block : List Stmt) : Prop := ∀ s ∈ block, s.Closed

/-- The functions in `block` are those in its statements. -/
theorem mem_bodiesIn {body : List Stmt} {block : List Stmt} :
    body ∈ bodiesIn block ↔ ∃ s ∈ block, body ∈ s.bodies := by
  induction block with
  | nil => simp [bodiesIn]
  | cons s rest ih => simp [bodiesIn, ih]

/-- `BlockClosed` asks of each body in `bodiesIn` that it ends. -/
theorem blockClosed_iff {block : List Stmt} :
    BlockClosed block ↔ ∀ body ∈ bodiesIn block, BodyEnds body := by
  simp only [BlockClosed, Stmt.Closed, mem_bodiesIn]
  constructor
  · rintro h body ⟨s, hs, hbody⟩
    exact h s hs body hbody
  · exact fun h s hs body hbody => h body ⟨s, hs, hbody⟩

/-- `xs ++ ys` is closed if both are. -/
@[simp] theorem blockClosed_append {xs ys : List Stmt} :
    BlockClosed (xs ++ ys) ↔ BlockClosed xs ∧ BlockClosed ys := List.forall_mem_append

/-- A block is closed if `s` and `rest` are. -/
@[simp] theorem blockClosed_cons {s : Stmt} {rest : List Stmt} :
    BlockClosed (s :: rest) ↔ s.Closed ∧ BlockClosed rest := List.forall_mem_cons

/-- The empty block is closed. -/
@[simp] theorem blockClosed_nil : BlockClosed [] := by nofun

namespace Expr

@[simp] theorem closed_ident (x : String) : (ident x).Closed := by nofun
@[simp] theorem closed_int (i : Int64) : (int i).Closed := by nofun
@[simp] theorem closed_number (x : Float) : (number x).Closed := by nofun
@[simp] theorem closed_text (s : String) : (text s).Closed := by nofun
@[simp] theorem closed_boolean (b : Bool) : (boolean b).Closed := by nofun
@[simp] theorem closed_undefined : undefined.Closed := by nofun

/-- The bodies in `es` end if each of the expressions is closed. -/
theorem forall_exprsBodies {es : List Expr} :
    (∀ body ∈ exprsBodies es, BodyEnds body) ↔ ∀ e ∈ es, e.Closed := by
  induction es with
  | nil => simp [exprsBodies]
  | cons e rest ih =>
    rw [exprsBodies, List.forall_mem_append, ih, List.forall_mem_cons]
    rfl

/-- The bodies in `fs` end if each of the parts is closed. -/
theorem forall_fieldsBodies {fs : List Field} :
    (∀ body ∈ fieldsBodies fs, BodyEnds body) ↔ ∀ f ∈ fs, f.Closed := by
  induction fs with
  | nil => simp [fieldsBodies]
  | cons f rest ih =>
    rw [fieldsBodies, List.forall_mem_append, ih, List.forall_mem_cons]
    rfl

@[simp] theorem closed_array {es : List Expr} : (array es).Closed ↔ ∀ e ∈ es, e.Closed :=
  forall_exprsBodies

@[simp] theorem closed_object {fs : List Field} : (object fs).Closed ↔ ∀ f ∈ fs, f.Closed :=
  forall_fieldsBodies

@[simp] theorem closed_access {e : Expr} {x : String} : (access e x).Closed ↔ e.Closed := .rfl

@[simp] theorem closed_index {e i : Expr} : (index e i).Closed ↔ e.Closed ∧ i.Closed :=
  List.forall_mem_append

@[simp] theorem closed_call {f : Expr} {es : List Expr} :
    (call f es).Closed ↔ f.Closed ∧ ∀ e ∈ es, e.Closed :=
  List.forall_mem_append.trans (and_congr_right' forall_exprsBodies)

@[simp] theorem closed_new {f : Expr} {es : List Expr} :
    (new f es).Closed ↔ f.Closed ∧ ∀ e ∈ es, e.Closed :=
  List.forall_mem_append.trans (and_congr_right' forall_exprsBodies)

@[simp] theorem closed_arrow {params : List String} {body : List Stmt} :
    (arrow params body).Closed ↔ BodyEnds body ∧ BlockClosed body :=
  List.forall_mem_cons.trans (and_congr_right' blockClosed_iff.symm)

@[simp] theorem closed_unary {op : UnaryOp} {e : Expr} : (unary op e).Closed ↔ e.Closed := .rfl

@[simp] theorem closed_binary {op : BinaryOp} {e e' : Expr} :
    (binary op e e').Closed ↔ e.Closed ∧ e'.Closed := List.forall_mem_append

@[simp] theorem closed_conditional {test yes no : Expr} :
    (conditional test yes no).Closed ↔ test.Closed ∧ yes.Closed ∧ no.Closed :=
  List.forall_mem_append.trans (and_congr_right' List.forall_mem_append)

end Expr

@[simp] theorem Field.closed_field {key : String} {e : Expr} :
    (field key e).Closed ↔ e.Closed := .rfl

@[simp] theorem Field.closed_spread {e : Expr} : (spread e).Closed ↔ e.Closed := .rfl

namespace Stmt

@[simp] theorem closed_const {x : String} {e : Expr} : (const x e).Closed ↔ e.Closed := .rfl
@[simp] theorem closed_declare {x : String} : (declare x none).Closed := by nofun
@[simp] theorem closed_declare_some {x : String} {e : Expr} :
    (declare x (some e)).Closed ↔ e.Closed := .rfl
@[simp] theorem closed_assign {x : String} {e : Expr} : (assign x e).Closed ↔ e.Closed := .rfl
@[simp] theorem closed_expr {e : Expr} : (expr e).Closed ↔ e.Closed := .rfl
@[simp] theorem closed_again : again.Closed := by nofun
@[simp] theorem closed_ret {e : Expr} : (ret e).Closed ↔ e.Closed := .rfl
@[simp] theorem closed_retObject {e : Expr} : (retObject e).Closed ↔ e.Closed := .rfl
@[simp] theorem closed_retUndefined : retUndefined.Closed := by nofun
@[simp] theorem closed_throw {e : Expr} : (throw e).Closed ↔ e.Closed := .rfl

@[simp] theorem closed_loop {body : List Stmt} : (loop body).Closed ↔ BlockClosed body :=
  blockClosed_iff.symm

@[simp] theorem closed_chain {arms : List (Expr × List Stmt)} :
    (chain arms).Closed ↔ ∀ arm ∈ arms, arm.1.Closed ∧ BlockClosed arm.2 := by
  have harms : (∀ body ∈ armsBodies arms, BodyEnds body) ↔
      ∀ arm ∈ arms, arm.1.Closed ∧ BlockClosed arm.2 := by
    induction arms with
    | nil => simp [armsBodies]
    | cons arm rest ih =>
      rw [armsBodies, List.forall_mem_append, List.forall_mem_append, ih, ← blockClosed_iff,
        List.forall_mem_cons, and_assoc]
      rfl
  exact harms

end Stmt

/-- A `curried` function is closed if its `body` ends and is closed: the functions around it
return. -/
theorem Expr.closed_curried {params : List String} {body : List Stmt} (hbody : BodyEnds body)
    (hclosed : BlockClosed body) : (curried params body).Closed := by
  induction params with
  | nil => exact closed_arrow.2 ⟨hbody, hclosed⟩
  | cons p rest ih =>
    cases rest with
    | nil => exact closed_arrow.2 ⟨hbody, hclosed⟩
    | cons q rest =>
      refine closed_arrow.2 ⟨.inl rfl, ?_⟩
      simpa using ih

end TailLoop.Script

namespace TailLoop.Lower

open Script Lowering Term

/-! ## Functions in what is written -/

/-- The step `m` writes blocks that end and are closed. -/
def GivesBody (m : Lowering (List Stmt)) : Prop := Gives m fun b => ends b = true ∧ BlockClosed b

/-- All ways `K` to lower a term write functions whose bodies end. -/
structure Code.Closed (K : Code) : Prop where
  /-- The expression is closed. -/
  value : Gives K.value Script.Expr.Closed
  /-- The statement is closed. -/
  returned : Gives K.returned Stmt.Closed
  /-- The effect is closed. -/
  run : Gives K.run Script.Expr.Closed
  /-- The block is closed. -/
  block : ∀ mode, Gives (K.block mode) BlockClosed
  /-- The body of a curried function ends and is closed, as the body of a loop. -/
  function : ∀ f, K.function = some f → GivesBody f.2

variable {K K' : Code} {value : Lowering Script.Expr}

/-- A `value` with a `returned` statement of its own. -/
theorem closed_ofReturn {returned : Lowering Stmt} (hv : Gives value Script.Expr.Closed)
    (hr : Gives returned Stmt.Closed) : (Code.ofReturn value returned).Closed where
  value := hv
  returned := hr
  run := hv.map fun e he => by simpa using he
  block mode := by
    simp only [Code.ofReturn]
    split
    · exact hv.map fun e he => by simpa using he
    · exact hr.map fun s hs => by simpa using hs
  function _ h := by cases h

/-- A term that is lowered to an expression by `value`. -/
theorem closed_ofValue (hv : Gives value Script.Expr.Closed) : (Code.ofValue value).Closed :=
  closed_ofReturn hv (hv.map fun _ he => he)

/-- A term that is lowered to an object literal by `value`. -/
theorem closed_ofObject (hv : Gives value Script.Expr.Closed) : (Code.ofObject value).Closed :=
  closed_ofReturn hv (hv.map fun _ he => he)

/-- A function around a `body` that ends is closed. -/
theorem closed_function {params : List String} {body : List Stmt} (hends : ends body = true)
    (hclosed : BlockClosed body) : (Script.Expr.arrow params body).Closed :=
  Script.Expr.closed_arrow.2 ⟨.inl hends, hclosed⟩

/-- So is such a `body` that is called where it stands. -/
theorem closed_immediate {body : List Stmt} (hends : ends body = true)
    (hclosed : BlockClosed body) : (Script.Expr.immediate body).Closed :=
  Script.Expr.closed_call.2 ⟨closed_function hends hclosed, by nofun⟩

/-- A term that is lowered to statements by `block`. -/
theorem closed_ofBlock {block : Mode → Lowering (List Stmt)} (h : ∀ mode, GivesBody (block mode)) :
    (Code.ofBlock block).Closed where
  value := (h .plain).map fun b hb => closed_immediate hb.1 hb.2
  returned := (h .plain).map fun b hb => closed_immediate hb.1 hb.2
  run := (h .plain).map fun b hb =>
    Script.Expr.closed_call.2 ⟨closed_immediate hb.1 hb.2, by nofun⟩
  block mode := (h mode).mono fun _ hb => hb.2
  function := by nofun

/-- An effect, which is a function of `body` where it is not run. -/
theorem closed_ofEffect {body : Lowering (List Stmt)} {run : Lowering Script.Expr}
    {block : Mode → Lowering (List Stmt)} (hbody : GivesBody body)
    (hrun : Gives run Script.Expr.Closed) (hblock : ∀ mode, Gives (block mode) BlockClosed) :
    (Code.ofEffect body run block).Closed where
  value := hbody.map fun b hb => closed_function hb.1 hb.2
  returned := hbody.map fun b hb => Stmt.closed_ret.2 (closed_function hb.1 hb.2)
  run := hrun
  block mode := by
    simp only [Code.ofEffect]
    split
    · exact hblock mode
    · refine hbody.map fun b hb => ?_
      exact blockClosed_cons.2 ⟨Stmt.closed_ret.2 (closed_function hb.1 hb.2), blockClosed_nil⟩
  function _ h := by cases h

variable {callee : Lowering Script.Expr} {args : List (Lowering Script.Expr)}

/-- `callEach` calls `callee` with `args` one by one. -/
theorem gives_callEach (hf : Gives callee Script.Expr.Closed)
    (hargs : ∀ arg ∈ args, Gives arg Script.Expr.Closed) :
    Gives (callEach callee args) Script.Expr.Closed := by
  induction args generalizing callee with
  | nil => exact hf
  | cons arg rest ih =>
    have hcall : Gives (do return .call (← callee) [← arg]) Script.Expr.Closed := by
      refine hf.bind fun f hf => (hargs arg (List.mem_cons_self ..)).map fun x hx => ?_
      simpa using ⟨hf, hx⟩
    exact ih hcall fun arg' harg' => hargs arg' (List.mem_cons_of_mem _ harg')

/-- `callAll` calls `callee` with all `args`. -/
theorem gives_callAll (hf : Gives callee Script.Expr.Closed)
    (hargs : ∀ arg ∈ args, Gives arg Script.Expr.Closed) :
    Gives (callAll callee args) Script.Expr.Closed := by
  refine hf.bind fun f hf => (gives_all hargs).map fun xs hxs => ?_
  exact Script.Expr.closed_call.2 ⟨hf, hxs⟩

/-- `jumpStmts` assigns closed `values` and starts the next round of the loop. -/
theorem blockClosed_jumpStmts {j : Jump} {values : List Script.Expr}
    (h : ∀ e ∈ values, e.Closed) : BlockClosed (jumpStmts j values) := by
  simp only [jumpStmts, blockClosed_append, blockClosed_cons, blockClosed_nil, Stmt.closed_again,
    and_true]
  refine ⟨fun s hs => ?_, fun s hs => ?_⟩
  · obtain ⟨x, -, rfl⟩ := Option.map_eq_some_iff.1 (Option.mem_toList.1 hs)
    simp [natLit]
  · obtain ⟨q, hq, rfl⟩ := List.mem_map.1 hs
    exact h q.2 (List.of_mem_zip hq).2

/-- If `jump?` makes statements of a call, they are closed. -/
theorem closed_jump? (r? : Option Ref) (hargs : ∀ arg ∈ args, Gives arg Script.Expr.Closed) :
    Gives (jump? r? args) fun stmts? => ∀ stmts, stmts? = some stmts → BlockClosed stmts := by
  cases r? with
  | none => exact .pure (by nofun)
  | some r =>
    refine (Gives.any (jumpTo? r)).bind fun j? _ => ?_
    cases j? with
    | none => exact .pure (by nofun)
    | some j =>
      simp only
      split
      · exact (Gives.any _).bind fun _ _ => .pure (by nofun)
      · split
        · exact (Gives.any _).bind fun _ _ => .pure (by nofun)
        · refine (gives_all hargs).bind fun values hvalues => .pure ?_
          rintro _ ⟨⟩
          exact blockClosed_jumpStmts hvalues

/-- An application of `callee` to `args`, which can become a jump. -/
theorem closed_appCode (r? : Option Ref) (hf : Gives callee Script.Expr.Closed)
    (hargs : ∀ arg ∈ args, Gives arg Script.Expr.Closed) : (appCode r? callee args).Closed := by
  have hplain := closed_ofValue (gives_callEach hf hargs)
  refine ⟨hplain.value, hplain.returned, hplain.run, fun mode => ?_, by nofun⟩
  simp only [appCode]
  split
  · refine (closed_jump? r? hargs).bind fun stmts? hstmts => ?_
    cases stmts? with
    | none => exact hplain.returned.map fun s hs => by simpa using hs
    | some stmts => exact .pure (hstmts stmts rfl)
  · exact hplain.block mode

/-- An application that runs when its effect does: a function that calls `callee`. -/
theorem closed_effectAppCode (hf : Gives callee Script.Expr.Closed)
    (hargs : ∀ arg ∈ args, Gives arg Script.Expr.Closed) : (effectAppCode callee args).Closed := by
  have hrun := gives_callAll hf hargs
  have hbody : GivesBody (do return [.ret (← callAll callee args)]) :=
    hrun.map fun e he => ⟨rfl, by simpa using he⟩
  exact closed_ofEffect hbody hrun fun _ => hbody.mono fun _ hb => hb.2

/-- If the blocks of `K` end and are closed, they are bodies of functions in every mode. -/
theorem Code.Closed.body (h : K.Closed) (hends : K.Ends) (mode : Mode) :
    GivesBody (K.block mode) := (hends.block mode).and (h.block mode)

/-- A curried function of `params`, whose body is a block of `K`. -/
theorem closed_curriedCode {params : List Binder} (hends : K.Ends) (h : K.Closed) :
    (curriedCode params K).Closed := by
  have hvalue : Gives (do
      let names ← bindNames params
      return Script.Expr.curried names (← K.block .plain)) Script.Expr.Closed := by
    refine (Gives.any (bindNames params)).bind fun names _ => ?_
    exact (h.body hends .plain).map fun b hb => Script.Expr.closed_curried (.inl hb.1) hb.2
  have hplain := closed_ofValue hvalue
  refine ⟨hplain.value, hplain.returned, hplain.run, hplain.block, ?_⟩
  rintro _ ⟨⟩
  exact h.body hends .looping

/-- A function that takes its `params` at once. -/
theorem closed_arrowCode {params : List Binder} {body : Lowering (List Stmt)}
    (h : GivesBody body) : (arrowCode params body).Closed := by
  refine closed_ofValue ((Gives.any (bindNames params)).bind fun names _ => ?_)
  exact h.map fun b hb => closed_function hb.1 hb.2

/-- `letCode` declares the value of `K` in front of a block of `K'`. -/
theorem closed_letCode {b : Binder} (hv : K.Closed) (hends : K'.Ends) (h : K'.Closed) :
    (letCode b K K').Closed := by
  refine closed_ofBlock fun mode => ((ends_letCode b hends).block mode).and ?_
  refine hv.value.bind fun e he => (Gives.any (bindName b)).bind fun name _ => ?_
  exact (h.block mode).map fun rest hrest => by simpa using ⟨he, hrest⟩

/-- `bindStmt` runs the effect `e`, and binds the result if `b` has a name. -/
theorem closed_bindStmt (b : Binder) {e : Script.Expr} (he : e.Closed) :
    Gives (bindStmt b e) Stmt.Closed := by
  unfold bindStmt
  split
  · exact (Gives.any (bindName b)).map fun _ _ => he
  · exact .pure he

/-- `bindCode` runs `K` in front of a block of `K'`. -/
theorem closed_bindCode {b : Binder} (he : K.Closed) (hends : K'.Ends) (h : K'.Closed) :
    (bindCode b K K').Closed := by
  have hblock (mode : Mode) : GivesBody (do
      let x ← K.run
      let s ← bindStmt b x
      let rest ← K'.block mode
      return s :: rest) := by
    refine he.run.bind fun e he => ?_
    refine ((gives_bindStmt b e).and (closed_bindStmt b he)).bind fun s hs => ?_
    refine (h.body hends mode).map fun rest hrest => ⟨ends_cons hs.1 hrest.1, ?_⟩
    simpa using ⟨hs.2, hrest.2⟩
  refine closed_ofEffect (hblock .effectful) ?_ fun mode => (hblock mode).mono fun _ hb => hb.2
  exact (hblock .effectful).map fun b hb => closed_immediate hb.1 hb.2

/-- `pureCode` is a function that returns what `K` returns. -/
theorem closed_pureCode (hends : K.Ends) (h : K.Closed) : (pureCode K).Closed := by
  have hbody : GivesBody (do return [← K.returned]) :=
    (hends.returned.and h.returned).map fun s hs => ⟨hs.1, by simpa using hs.2⟩
  exact closed_ofEffect hbody h.value fun _ => hbody.mono fun _ hb => hb.2

/-- `deferCode` is a function whose body is a block of `K`. -/
theorem closed_deferCode (hends : K.Ends) (h : K.Closed) : (deferCode K).Closed := by
  refine closed_ofEffect (h.body hends .effectful) ?_ h.block
  exact (h.body hends .effectful).map fun b hb => closed_immediate hb.1 hb.2

/-- `armBlocks` writes the `arms` of a branch with blocks of their own. -/
theorem closed_armBlocks {mode : Mode} {arms : List (Code × Code)}
    (h : ∀ arm ∈ arms, arm.1.Closed ∧ arm.2.Closed) :
    Gives (armBlocks mode arms) fun blocks => ∀ arm ∈ blocks, arm.1.Closed ∧ BlockClosed arm.2 := by
  induction arms with
  | nil => exact .pure (by nofun)
  | cons arm rest ih =>
    obtain ⟨hcond, hbody⟩ := h arm (List.mem_cons_self ..)
    refine hcond.value.bind fun e he => (hbody.block mode).bind fun block hblock => ?_
    refine (ih fun arm' harm' => h arm' (List.mem_cons_of_mem _ harm')).map fun blocks hblocks => ?_
    exact List.forall_mem_cons.2 ⟨⟨he, hblock⟩, hblocks⟩

/-- `conditionalExpr` writes the `arms` of a branch as an expression. -/
theorem closed_conditionalExpr {arms : List (Code × Code)}
    (h : ∀ arm ∈ arms, arm.1.Closed ∧ arm.2.Closed) (hdefault : K.Closed) :
    Gives (conditionalExpr arms K) Script.Expr.Closed := by
  induction arms with
  | nil => exact hdefault.value
  | cons arm rest ih =>
    obtain ⟨hcond, hbody⟩ := h arm (List.mem_cons_self ..)
    refine hcond.value.bind fun e he => hbody.value.bind fun yes hyes => ?_
    refine (ih fun arm' harm' => h arm' (List.mem_cons_of_mem _ harm')).map fun no hno => ?_
    simpa using ⟨he, hyes, hno⟩

/-- `branchCode` writes `arms` and the default `K` in one of these two ways. -/
theorem closed_branchCode {simple : Bool} {arms : List (Code × Code)}
    (hends : ∀ arm ∈ arms, arm.2.Ends) (harms : ∀ arm ∈ arms, arm.1.Closed ∧ arm.2.Closed)
    (hdefaultEnds : K.Ends) (hdefault : K.Closed) : (branchCode simple arms K).Closed := by
  have hclosed (mode : Mode) : Gives (do
      let blocks ← armBlocks mode arms
      let rest ← K.block mode
      return (if blocks.isEmpty then [] else [Stmt.chain blocks]) ++ rest) BlockClosed := by
    refine (closed_armBlocks harms).bind fun blocks hblocks => ?_
    refine (hdefault.block mode).map fun rest hrest => ?_
    cases blocks with
    | nil => exact hrest
    | cons arm blocks => exact blockClosed_cons.2 ⟨Stmt.closed_chain.2 hblocks, hrest⟩
  have hbranch : (branchCode false arms K).Ends := ends_branchCode hends hdefaultEnds
  unfold branchCode
  split
  · have hvalue := closed_ofValue (closed_conditionalExpr harms hdefault)
    exact ⟨hvalue.value, hvalue.returned, hvalue.run, hclosed, by nofun⟩
  · exact closed_ofBlock fun mode => (hbranch.block mode).and (hclosed mode)

/-! ## Recursive groups -/

/-- `declareValues` writes a `declaration` for each of `bindings`. -/
theorem closed_declareValues {declaration : String → Script.Expr → Stmt}
    (hdeclaration : ∀ x e, e.Closed → (declaration x e).Closed) {bindings : List (String × Code)}
    (h : ∀ b ∈ bindings, b.2.Closed) : Gives (declareValues declaration bindings) BlockClosed := by
  induction bindings with
  | nil => exact .pure blockClosed_nil
  | cons b rest ih =>
    refine (h b (List.mem_cons_self ..)).value.bind fun e he => ?_
    refine (ih fun b' hb' => h b' (List.mem_cons_of_mem _ hb')).map fun others hothers => ?_
    exact blockClosed_cons.2 ⟨hdeclaration b.1 e he, hothers⟩

/-- `recursiveDeclarations` of `bindings` that are no loop. -/
theorem closed_recursiveDeclarations (functions : Bool) {bindings : List (String × Code)}
    (h : ∀ b ∈ bindings, b.2.Closed) :
    Gives (recursiveDeclarations functions bindings) BlockClosed := by
  unfold recursiveDeclarations
  split
  · exact closed_declareValues (fun _ _ he => Stmt.closed_const.2 he) h
  · refine (closed_declareValues (fun _ _ he => Stmt.closed_assign.2 he) h).map
      fun assigns hassigns => ?_
    refine blockClosed_append.2 ⟨fun s hs => ?_, hassigns⟩
    obtain ⟨b, -, rfl⟩ := List.mem_map.1 hs
    exact Stmt.closed_declare

/-- `bindParams` declares constants for `params` with the values of `slots`. -/
theorem gives_bindParams (params : List Binder) (slots : List String) :
    Gives (bindParams params slots) fun b => AllGoOn b ∧ BlockClosed b := by
  fun_induction bindParams params slots with
  | case1 b params slot slots ih =>
    refine (Gives.any (bindName b)).bind fun name _ => ih.map fun rest hrest => ?_
    exact ⟨List.forall_mem_cons.2 ⟨rfl, hrest.1⟩, by simpa using hrest.2⟩
  | case2 => exact .pure ⟨List.forall_mem_nil _, blockClosed_nil⟩

/-- `memberBody` puts these in front of the body of the member `m`. -/
theorem gives_memberBody {m : Member} (slots : List String) (h : GivesBody m.body) :
    GivesBody (memberBody m slots) := by
  refine (gives_bindParams m.params slots).bind fun binds hbinds => h.map fun body hbody => ?_
  exact ⟨ends_append hbinds.1 hbody.1, blockClosed_append.2 ⟨hbinds.2, hbody.2⟩⟩

/-- `dispatchBody` writes the bodies of all `members`, and none of them runs into the next one. -/
theorem gives_dispatchBody {selector : String} {slots : List String} {i : Nat}
    {members : List Member} (hne : members ≠ []) (h : ∀ m ∈ members, GivesBody m.body) :
    GivesBody (dispatchBody selector slots i members) := by
  induction members generalizing i with
  | nil => exact absurd rfl hne
  | cons m rest ih =>
    have hfirst := gives_memberBody slots (h m (List.mem_cons_self ..))
    cases rest with
    | nil => exact hfirst
    | cons m' rest =>
      refine hfirst.bind fun block hblock => ?_
      refine (ih (by simp) fun x hx => h x (List.mem_cons_of_mem _ hx)).map fun others hothers => ?_
      refine ⟨ends_cons (goesOn_chain.2 ?_) hothers.1, blockClosed_cons.2 ⟨?_, hothers.2⟩⟩
      · simpa using hblock.1
      · simpa [natLit] using hblock.2

/-- A function may end with a loop, if the body `inner` of the loop ends. -/
theorem bodyEnds_loop {pre inner : List Stmt} (hpre : AllGoOn pre) (h : ends inner = true) :
    BodyEnds (pre ++ [.loop inner]) := by
  refine .inr ⟨pre, inner, rfl, fun s hs => ?_, h⟩
  have := hpre s hs
  simp only [Stmt.goesOn, Bool.and_eq_true, Bool.not_eq_true'] at this
  exact this.1

/-- `selfLoop` makes a loop of a single function `m`. -/
theorem gives_selfLoop {m : Member} (h : GivesBody m.body) :
    Gives (selfLoop m) Script.Expr.Closed := by
  refine (Gives.any _).bind fun label _ => (Gives.any _).bind fun copies _ => ?_
  refine (Gives.any _).bind fun slots _ => ?_
  refine (gives_inLoop (gives_memberBody slots h)).map fun body hbody => ?_
  -- the slots start with the arguments
  have hstart (s : Stmt)
      (hs : s ∈ (slots.zip copies).map fun p => Stmt.declare p.1 (some (.ident p.2))) :
      s.goesOn = true ∧ s.Closed := by
    obtain ⟨q, -, rfl⟩ := List.mem_map.1 hs
    exact ⟨rfl, by simp⟩
  refine Script.Expr.closed_curried (bodyEnds_loop (fun s hs => (hstart s hs).1) hbody.1) ?_
  refine blockClosed_append.2 ⟨fun s hs => (hstart s hs).2, ?_⟩
  simpa using hbody.2

/-- `entries` writes the functions that enter a shared loop. -/
theorem closed_entries (label : String) (i : Nat) (members : List Member) :
    Gives (entries label i members) BlockClosed := by
  induction members generalizing i with
  | nil => exact .pure blockClosed_nil
  | cons m rest ih =>
    refine (Gives.any (copyNames m.params)).bind fun copies _ => ?_
    refine (ih (i + 1)).map fun others hothers => blockClosed_cons.2 ⟨?_, hothers⟩
    refine Stmt.closed_const.2 (Script.Expr.closed_curried (.inl rfl) ?_)
    simp [natLit]

/-- `sharedLoop` makes one loop of several `members`. -/
theorem gives_sharedLoop {members : List Member} (label : String) (hne : members ≠ [])
    (h : ∀ m ∈ members, GivesBody m.body) : Gives (sharedLoop members label) BlockClosed := by
  refine (Gives.any _).bind fun selector _ => (Gives.any _).bind fun slots _ => ?_
  refine (gives_inLoop (gives_dispatchBody hne h)).bind fun body hbody => ?_
  refine (closed_entries label 0 members).map fun rest hrest => blockClosed_cons.2 ⟨?_, hrest⟩
  refine Stmt.closed_const.2 (Script.Expr.closed_arrow.2 ⟨?_, by simpa using hbody.2⟩)
  exact .inr ⟨[], body, rfl, by nofun, hbody.1⟩

/-- `loopDeclarations` writes the loop of `members`, be it one or several. -/
theorem closed_loopDeclarations {members : List Member} (dispatcher : Option String)
    (hne : members ≠ []) (h : ∀ m ∈ members, GivesBody m.body) :
    Gives (loopDeclarations members dispatcher) BlockClosed := by
  unfold loopDeclarations
  split
  · rename_i m
    refine (Gives.any _).bind fun _ _ => ?_
    refine (gives_selfLoop (h m (List.mem_singleton.2 rfl))).map fun function hfunction => ?_
    simpa using hfunction
  · rw [groupLoop_eq]
    refine (Gives.any _).bind fun _ _ => (Gives.any _).bind fun label _ => ?_
    exact gives_sharedLoop label hne h

variable {c : Context}

/-- The loop of a group of functions, which `loopMembers?` finds. -/
theorem closed_loopGroup {idents : List String} {refs : List Ref} {ts : List Analyzed}
    {members : List Member} (dispatcher : Option String) (hidents : idents.length = ts.length)
    (hrefs : refs.length = ts.length) (hne : ts ≠ []) (h : ∀ t ∈ ts, (code c t).Closed)
    (hmembers : loopMembers? idents refs (ts.map (code c)) = some members) :
    Gives (loopDeclarations members dispatcher) BlockClosed := by
  rw [loopMembers?_eq] at hmembers
  split at hmembers
  · rename_i hall
    obtain rfl := Option.some.inj hmembers
    refine closed_loopDeclarations dispatcher ?_ fun m hm => ?_
    · intro hnil
      have hlength := congrArg List.length hnil
      simp only [List.length_map, List.length_zip, List.length_nil] at hlength
      have := List.length_pos_iff.2 hne
      omega
    · obtain ⟨p, hp, rfl⟩ := List.mem_map.1 hm
      have hfunction := function_code c p.2
      rw [if_pos (List.all_eq_true.1 hall p hp)] at hfunction
      exact (h p.2 (List.of_mem_zip hp).2).function _ hfunction
  · cases hmembers

/-- `groupDeclarations` of a recursive group `ts`, which may be a loop. -/
theorem closed_groupDeclarations {loop functions : Bool} {refs : List Ref} {binders : List Binder}
    {ts : List Analyzed} (hbinders : binders.length = ts.length) (hrefs : refs.length = ts.length)
    (hne : loop = true → ts ≠ []) (h : ∀ t ∈ ts, (code c t).Closed) :
    Gives (groupDeclarations loop functions refs binders (ts.map (code c))) BlockClosed := by
  have hnames : Gives (bindNames binders) fun idents => idents.length = ts.length := by
    intro p
    rw [← hbinders]
    exact (calmStep_bindNames binders p rfl).2
  refine hnames.bind fun idents hidents => ?_
  split
  · rename_i members hmembers
    exact closed_loopGroup none hidents hrefs (hne rfl) h hmembers
  · refine closed_recursiveDeclarations functions fun b hb => ?_
    obtain ⟨t, ht, heq⟩ := List.mem_map.1 (List.of_mem_zip hb).2
    exact heq ▸ h t ht

/-! ## Terms -/

/-- `fieldCodes` writes the parts of an object literal. -/
theorem gives_fieldCodes {fields : List (String × Analyzed)}
    (h : ∀ s ∈ fields.map Prod.snd, (code c s).Closed) :
    Gives (all (fieldCodes c fields)) fun fs => ∀ f ∈ fs, f.Closed := by
  rw [fieldCodes_eq_map]
  refine gives_all fun m hm => ?_
  obtain ⟨f, hf, rfl⟩ := List.mem_map.1 hm
  exact (h f.2 (List.mem_map.2 ⟨f, hf, rfl⟩)).value.map fun e he => he

/-- `valueCodes` writes the terms `ts` as expressions. -/
theorem gives_valueCodes {ts : List Analyzed} (h : ∀ t ∈ ts, (code c t).Closed) :
    ∀ m ∈ valueCodes c ts, Gives m Script.Expr.Closed := by
  rw [valueCodes_eq_map]
  intro m hm
  obtain ⟨t, ht, rfl⟩ := List.mem_map.1 hm
  exact (h t ht).value

/-- In a term `t` whose flagged groups consist of functions, all functions have bodies that end. -/
theorem closed_code (c : Context) (t : Analyzed) (hf : t.FlagsFunctions) : (code c t).Closed := by
  induction t using children_induction with
  | step t ih =>
  have hchild (s : Analyzed) (hs : s ∈ t.children) : (code c s).Closed := ih s hs (hf.child hs)
  cases t with
  | global a q =>
    refine closed_ofValue (.pure ?_)
    rw [globalExpr]
    split
    · simp
    · split <;> simp
  | bound a b => exact closed_ofValue ((Gives.any (nameOf b)).map fun _ _ => by simp)
  | lit a value => exact closed_ofValue (.pure (by cases value <;> simp [literalExpr]))
  | constructor a tag fields =>
    refine closed_ofValue ((Gives.any (freshNames fields)).map fun names _ => ?_)
    -- without fields the object is the value itself, otherwise the body of a curried function
    have hobject : (Script.Expr.object (tagField tag ::
        (fields.zip names).map fun p => .field p.1 (.ident p.2))).Closed := by
      refine Script.Expr.closed_object.2 (List.forall_mem_cons.2 ⟨by simp [tagField], ?_⟩)
      exact List.forall_mem_map.2 fun _ _ => by simp
    unfold constructorExpr
    split
    · exact hobject
    · exact Script.Expr.closed_curried (.inl rfl) (by simpa using hobject)
  | undefined a => exact closed_ofReturn (.pure (by simp)) (.pure (by simp))
  | fail a message => exact closed_ofBlock fun _ => .pure ⟨rfl, by simp [failure]⟩
  | array a items =>
    refine closed_ofValue ((gives_all (gives_valueCodes hchild)).map fun es hes => ?_)
    exact Script.Expr.closed_array.2 hes
  | record a fields =>
    refine closed_ofObject ((gives_fieldCodes hchild).map fun fs hfs => ?_)
    exact Script.Expr.closed_object.2 hfs
  | construct a type tag fields =>
    refine closed_ofObject ((gives_fieldCodes hchild).map fun fs hfs => ?_)
    exact Script.Expr.closed_object.2 (List.forall_mem_cons.2 ⟨by simp [tagField], hfs⟩)
  | update a subject fields =>
    refine closed_ofObject ((hchild subject (List.mem_cons_self ..)).value.bind fun e he => ?_)
    refine (gives_fieldCodes fun s hs => hchild s (List.mem_cons_of_mem _ hs)).map fun fs hfs => ?_
    exact Script.Expr.closed_object.2 (List.forall_mem_cons.2 ⟨by simpa using he, hfs⟩)
  | app a calling head args =>
    have hhead := (hchild head (List.mem_cons_self ..)).value
    have hargs := gives_valueCodes fun u hu => hchild u (List.mem_cons_of_mem _ hu)
    -- the body of a curried function was converted with the arguments, so a jump to `head` counts
    -- too
    cases calling with
    | curried => exact closed_appCode _ hhead hargs
    | uncurried => exact closed_ofValue (gives_callAll hhead hargs)
    | effectful => exact closed_effectAppCode hhead hargs
  | abs a calling params body =>
    have hbody := hchild body (List.mem_singleton.2 rfl)
    cases calling with
    | curried => exact closed_curriedCode (ends_code c body) hbody
    | uncurried => exact closed_arrowCode (hbody.body (ends_code c body) .plain)
    | effectful => exact closed_arrowCode (hbody.body (ends_code c body) .effectful)
  | access a subject accessor =>
    refine closed_ofValue ((hchild subject (List.mem_singleton.2 rfl)).value.map fun e he => ?_)
    cases accessor <;> simpa [accessExpr, wordLit] using he
  | test a subject guard =>
    refine closed_ofValue ((hchild subject (List.mem_singleton.2 rfl)).value.map fun e he => ?_)
    cases guard with
    | boolean value => cases value <;> simpa [testExpr] using he
    | _ => simpa [testExpr, wordLit] using he
  | unary a op operand =>
    exact closed_ofValue ((hchild operand (List.mem_singleton.2 rfl)).value.map fun e he => he)
  | binary a op left right =>
    refine closed_ofValue ((hchild left (by simp [children])).value.bind fun e he => ?_)
    refine (hchild right (by simp [children])).value.map fun e' he' => ?_
    exact Script.Expr.closed_binary.2 ⟨he, he'⟩
  | letIn a b value body =>
    exact closed_letCode (hchild value (by simp [children])) (ends_code c body)
      (hchild body (by simp [children]))
  | letRec a level bindings body =>
    -- that the blocks end is known already; what is left are the functions among the declarations
    have hends := (ends_code c (.letRec a level bindings body)).block
    have hgroup := hf a level bindings body (mem_subterms_iff.2 (.inl rfl))
    rw [code, bindingCodes_eq] at hends ⊢
    refine closed_ofBlock fun mode => (hends mode).and ?_
    refine Gives.bind (closed_groupDeclarations (by simp) (by simp [groupRefs]) ?_ ?_)
      fun declarations hdeclarations => ?_
    · intro hloop
      exact (hgroup (Bool.and_eq_true_iff.1 hloop).1).nonempty
    · exact fun s hs => hchild s (List.mem_append_left _ hs)
    · refine ((hchild body (by simp [children])).block mode).map fun rest hrest => ?_
      exact blockClosed_append.2 ⟨hdeclarations, hrest⟩
  | bindEffect a b effect body =>
    exact closed_bindCode (hchild effect (by simp [children])) (ends_code c body)
      (hchild body (by simp [children]))
  | pureEffect a value =>
    exact closed_pureCode (ends_code c value) (hchild value (List.mem_singleton.2 rfl))
  | deferEffect a effect =>
    exact closed_deferCode (ends_code c effect) (hchild effect (List.mem_singleton.2 rfl))
  | branch a arms default =>
    have harm (arm : Analyzed × Analyzed) (h : arm ∈ arms) (s : Analyzed)
        (hs : s ∈ [arm.1, arm.2]) : (code c s).Closed :=
      hchild s (List.mem_append_left _ (List.mem_flatMap.2 ⟨arm, h, hs⟩))
    rw [code, armCodes_eq_map]
    -- an arm needs both: its block ends, and the functions in it are closed
    refine closed_branchCode ?_ ?_ (ends_code c default) (hchild default (by simp [children]))
    · exact List.forall_mem_map.2 fun arm _ => ends_code c arm.2
    · exact List.forall_mem_map.2 fun arm h => ⟨harm arm h _ (by simp), harm arm h _ (by simp)⟩

/-! ## Units -/

/-- The declarations of a top-level group `g` are closed. -/
theorem blockClosed_group (c : Context) (m : String) (g : BindingGroup) :
    BlockClosed (group c (g.analyze m)).result := by
  have hclosed (t : Analyzed) (ht : t ∈ (g.analyze m).bindings.map Prod.snd) :
      (code c t).Closed := by
    obtain ⟨b, -, rfl⟩ := BindingGroup.exists_of_mem_analyze ht
    exact closed_code c _ (flagsFunctions_analyze _ b.2)
  unfold group
  split
  · rename_i members hloop hmembers
    rw [topMembers?, bindingCodes_eq] at hmembers
    refine closed_loopGroup _ (by simp) (by simp [topRefs]) ?_ hclosed hmembers _
    exact (functionGroup_group (Bool.and_eq_true_iff.1 hloop).1).nonempty
  · intro s hs
    rw [Outcome.result_concat, List.mem_flatMap] at hs
    obtain ⟨o, ho, hs⟩ := hs
    obtain ⟨b, hb, rfl⟩ := List.mem_map.1 ho
    obtain rfl := List.mem_singleton.1 hs
    exact (hclosed b.2 (List.mem_map.2 ⟨b, hb, rfl⟩)).value _

end TailLoop.Lower

namespace TailLoop

/-- No block falls through and none holds anything behind its end. Whatever the term, the mode and
the state, the block of a term consists of statements that go on, the arms of its chains being such
blocks again, and one statement that leaves it. In the script of a unit, the body of every function
is such a block, or it ends with a loop whose body is one. -/
theorem blocks_end :
    (∀ (c : Lower.Context) (t : Analyzed) (mode : Lower.Mode) (env : Lower.Env),
      Script.ends (((Lower.code c t).block mode).runIn env).result = true) ∧
    ∀ (u : CompilationUnit) (loops : Bool),
      ∀ body ∈ Script.bodiesIn (Lower.module u loops).result.declarations,
        Script.BodyEnds body := by
  constructor
  · intro c t mode env
    exact (Lower.ends_code c t).block mode _
  · intro u loops
    refine Script.blockClosed_iff.1 fun s hs => ?_
    have hdeclarations : (Lower.module u loops).result.declarations =
        (u.analyze.map (Lower.group (.ofUnit u loops))).flatMap Lower.Outcome.result :=
      Lower.Outcome.result_concat _
    rw [hdeclarations, List.mem_flatMap] at hs
    obtain ⟨o, ho, hs⟩ := hs
    obtain ⟨g', hg', rfl⟩ := List.mem_map.1 ho
    obtain ⟨g, -, rfl⟩ := List.mem_map.1 hg'
    exact Lower.blockClosed_group _ u.name g s hs

/-- The unit `countdown` has functions, and they leave their bodies on every path. -/
theorem blocks_end_countdown :
    ∃ body ∈ Script.bodiesIn (Lower.module countdown true).result.declarations,
      Script.BodyEnds body := by
  have h : 0 < (Script.bodiesIn (Lower.module countdown true).result.declarations).length := by
    decide +kernel
  obtain ⟨body, hbody⟩ := List.exists_mem_of_length_pos h
  exact ⟨body, hbody, blocks_end.2 countdown true body hbody⟩

end TailLoop
