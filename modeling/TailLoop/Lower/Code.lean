import TailLoop.Lower.Loop

/-!
# Lowering terms

A term can be lowered in four ways: as an expression, as a statement that returns it, as an
expression that runs it as an effect, and as a block. `code` gives all four at once, each built from
those of the subterms, so that the lowering follows the structure of the term.
-/

namespace TailLoop.Lower

open Script Lowering

/-- What a block is for. -/
structure Mode where
  /-- Whether the block runs its term as an effect. -/
  effect : Bool
  /-- Whether the block is the body of a loop, where calls of members can become jumps. -/
  loop : Bool
  deriving DecidableEq

namespace Mode

/-- The body of an ordinary function. -/
def plain : Mode := ⟨false, false⟩

/-- The body of a function that runs an effect. -/
def effectful : Mode := ⟨true, false⟩

/-- The body of a loop. -/
def looping : Mode := ⟨false, true⟩

end Mode

/-- The ways to lower a term. -/
structure Code where
  /-- As an expression. -/
  value : Lowering Script.Expr
  /-- As a statement that returns it. -/
  returned : Lowering Stmt
  /-- As an expression that runs it as an effect. -/
  run : Lowering Script.Expr
  /-- As a block. -/
  block : Mode → Lowering (List Stmt)
  /-- If it is a curried function, its parameters and its body as the body of a loop. -/
  function : Option (List Binder × Lowering (List Stmt)) := none

namespace Code

/-- An expression that returns as `ret` says. -/
def ofReturn (value : Lowering Script.Expr) (returned : Lowering Stmt) : Code where
  value := value
  returned := returned
  run := do return .call (← value) []
  block mode :=
    if mode.effect then do return [.ret (.call (← value) [])]
    else do return [← returned]

/-- A term that is an expression. -/
def ofValue (value : Lowering Script.Expr) : Code := ofReturn value do return .ret (← value)

/-- A term that is an object literal. -/
def ofObject (value : Lowering Script.Expr) : Code :=
  ofReturn value do return .retObject (← value)

/-- A term that is a block whatever it is for; as an expression it is the call of a function. -/
def ofBlock (block : Mode → Lowering (List Stmt)) : Code where
  value := do return .immediate (← block .plain)
  returned := do return .ret (.immediate (← block .plain))
  run := do return .call (.immediate (← block .plain)) []
  block := block

/-- A term that is an effect: as an expression it is a function without parameters that runs it. -/
def ofEffect (body : Lowering (List Stmt)) (run : Lowering Script.Expr)
    (block : Mode → Lowering (List Stmt)) : Code where
  value := do return .arrow [] (← body)
  returned := do return .ret (.arrow [] (← body))
  run := run
  block mode := if mode.effect then block mode else do return [.ret (.arrow [] (← body))]

end Code

/-! ## Expressions without subterms -/

/-- The expression of a top-level name. -/
def globalExpr (c : Context) (q : Qualified) : Script.Expr :=
  match c.isLocal q, q.module with
  | false, some m => .access (.ident (moduleAlias m)) q.ident
  | _, _ => if c.isForeign q.ident then .access (.ident foreignAlias) q.ident else .ident q.ident

/-- The expression of a literal. -/
def literalExpr : Literal → Script.Expr
  | .int i => .int i
  | .number x => .number x
  | .text s => .text s
  | .char c => .text c.toString
  | .boolean b => .boolean b

/-- The literal of an unsigned number, taken as a signed one of the same width. -/
def wordLit (n : UInt64) : Script.Expr := .int n.toInt64

/-- The test of a guard. -/
def testExpr (subject : Script.Expr) : Guard → Script.Expr
  | .number x => .binary .eq subject (.number x)
  | .int i => .binary .eq subject (.int i)
  | .text s => .binary .eq subject (.text s)
  | .char c => .binary .eq subject (.text c.toString)
  | .boolean true => subject
  | .boolean false => .unary .not subject
  | .tag name => .binary .eq (.access subject "tag") (.text name)
  | .length n => .binary .eq (.access subject "length") (wordLit n)

/-- The expression of an access. -/
def accessExpr (subject : Script.Expr) : Accessor → Script.Expr
  | .property name => .access subject name
  | .index i => .index subject (wordLit i)
  | .field _ name => .access subject name

/-- The field that names the constructor of a value. -/
def tagField (tag : String) : Field := .field "tag" (.text tag)

/-- A function that builds a value from its fields, or the value itself if it has none. -/
def constructorExpr (tag : String) (fields params : List String) : Script.Expr :=
  let object := Script.Expr.object
    (tagField tag :: (fields.zip params).map fun p => .field p.1 (.ident p.2))
  if params.isEmpty then object else .curried params [.retObject object]

/-- The statement of a failure. -/
def failure (message : String) : Stmt := .throw (.new (.ident "Error") [.text message])

/-! ## Calls and jumps -/

/-- Calls a function with its arguments one by one. -/
def callEach (callee : Lowering Script.Expr) (args : List (Lowering Script.Expr)) :
    Lowering Script.Expr :=
  args.foldl (fun callee arg => do
    let f ← callee
    let x ← arg
    return .call f [x]) callee

/-- Calls a function with all its arguments. -/
def callAll (callee : Lowering Script.Expr) (args : List (Lowering Script.Expr)) :
    Lowering Script.Expr := do
  let f ← callee
  let xs ← all args
  return .call f xs

/-- Assigns the slots of a loop and starts its next round. -/
def jumpStmts (j : Jump) (values : List Script.Expr) : List Stmt :=
  (j.scope.selector.map fun selector => Stmt.assign selector (natLit j.member)).toList
    ++ (j.scope.slots.zip values).map (fun p => .assign p.1 p.2) ++ [.again]

/-- The jump that a call in a loop becomes, if the head refers to a member of the innermost loop.
All arguments are computed before a slot changes. -/
def jump? (r? : Option Ref) (args : List (Lowering Script.Expr)) : Lowering (Option (List Stmt)) :=
  match r? with
  | none => return none
  | some r => do
    match ← jumpTo? r with
    | none => return none
    | some j =>
      -- starting a round of an outer loop from inside another one is not possible
      if 0 < j.exited then
        report .debug ("call to " ++ r.text ++ " leaves " ++ Decimal.digitsText j.exited
          ++ " nested loop(s), emitting a call")
        return none
      else if j.arity ≠ args.length then
        clash ⟨r, args.length, j.arity⟩
        return none
      else
        let values ← all args
        return some (jumpStmts j values)

/-- An application whose arguments are given one by one. In a loop it may become a jump. -/
def appCode (r? : Option Ref) (callee : Lowering Script.Expr)
    (args : List (Lowering Script.Expr)) : Code :=
  let plain := Code.ofValue (callEach callee args)
  { plain with
    block := fun mode =>
      if mode.loop then do
        match ← jump? r? args with
        | some stmts => return stmts
        | none => return [← plain.returned]
      else plain.block mode }

/-! ## Functions, bindings and effects -/

/-- A curried function. -/
def curriedCode (params : List Binder) (body : Code) : Code :=
  { Code.ofValue (do
      let names ← bindNames params
      return .curried names (← body.block .plain)) with
    function := some (params, body.block .looping) }

/-- A function that takes its arguments at once. -/
def arrowCode (params : List Binder) (body : Lowering (List Stmt)) : Code :=
  .ofValue do
    let names ← bindNames params
    return .arrow names (← body)

/-- An application that runs at once. -/
def effectAppCode (callee : Lowering Script.Expr) (args : List (Lowering Script.Expr)) : Code :=
  let run := callAll callee args
  let body : Lowering (List Stmt) := do return [.ret (← run)]
  .ofEffect body run fun _ => body

/-- A binding. -/
def letCode (b : Binder) (value body : Code) : Code :=
  .ofBlock fun mode => do
    let x ← value.value
    let name ← bindName b
    let rest ← body.block mode
    return .const name x :: rest

/-- The result of an effect, bound if the binder has a name. -/
def bindStmt (b : Binder) (effect : Script.Expr) : Lowering Stmt :=
  match b.name with
  | some _ => do return .const (← bindName b) effect
  | none => return .expr effect

/-- An effect that goes on with the result of another. -/
def bindCode (b : Binder) (effect body : Code) : Code :=
  let block (mode : Mode) : Lowering (List Stmt) := do
    let x ← effect.run
    let s ← bindStmt b x
    let rest ← body.block mode
    return s :: rest
  .ofEffect (block .effectful) (do return .immediate (← block .effectful)) block

/-- The effect that gives a value. -/
def pureCode (value : Code) : Code :=
  let body : Lowering (List Stmt) := do return [← value.returned]
  .ofEffect body value.value fun _ => body

/-- An effect that is built when it runs. -/
def deferCode (effect : Code) : Code :=
  .ofEffect (effect.block .effectful) (do return .immediate (← effect.block .effectful))
    effect.block

/-! ## Branches -/

/-- The arms of a branch as a chain of blocks. -/
def armBlocks (mode : Mode) : List (Code × Code) → Lowering (List (Script.Expr × List Stmt))
  | [] => pure []
  | (cond, body) :: rest => do
    let x ← cond.value
    let block ← body.block mode
    let others ← armBlocks mode rest
    return (x, block) :: others

/-- The arms of a branch as a conditional expression. -/
def conditionalExpr (arms : List (Code × Code)) (default : Code) : Lowering Script.Expr :=
  match arms with
  | [] => default.value
  | (cond, body) :: rest => do
    let x ← cond.value
    let yes ← body.value
    let no ← conditionalExpr rest default
    return .conditional x yes no

/-- A branch: a chain of blocks and then the default, or a conditional expression if all its parts
are expressions. -/
def branchCode (simple : Bool) (arms : List (Code × Code)) (default : Code) : Code :=
  let plain := Code.ofBlock fun mode => do
    let blocks ← armBlocks mode arms
    let rest ← default.block mode
    return (if blocks.isEmpty then [] else [.chain blocks]) ++ rest
  if simple then { Code.ofValue (conditionalExpr arms default) with block := plain.block }
  else plain

/-! ## Recursive groups -/

/-- Whether a binding is a function, so that it can be declared before what it refers to. -/
def isFunction {α : Type} : Term α → Bool
  | .abs .. | .constructor .. => true
  | _ => false

/-- Declares the values of bindings one by one. -/
def declareValues (declaration : String → Script.Expr → Stmt) :
    List (String × Code) → Lowering (List Stmt)
  | [] => pure []
  | (ident, value) :: rest => do
    let x ← value.value
    let others ← declareValues declaration rest
    return declaration ident x :: others

/-- Bindings that may refer to each other and are no loop. -/
def recursiveDeclarations (functions : Bool) (bindings : List (String × Code)) :
    Lowering (List Stmt) :=
  if functions then declareValues .const bindings
  else do
    -- all variables are declared first, since a value may refer to a later one
    let assigns ← declareValues .assign bindings
    return bindings.map (fun b => .declare b.1 none) ++ assigns

/-- The members of a loop, if all bindings are curried functions. -/
def loopMembers? (idents : List String) (refs : List Ref) (codes : List Code) :
    Option (List Member) :=
  ((idents.zip refs).zip codes).mapM fun p =>
    p.2.function.map fun f => ⟨p.1.1, p.1.2, f.1, f.2⟩

/-- The declarations of a recursive group of bindings. -/
def groupDeclarations (loop functions : Bool) (members : List Ref) (binders : List Binder)
    (codes : List Code) : Lowering (List Stmt) := do
  let idents ← bindNames binders
  match loop, loopMembers? idents members codes with
  | true, some members => loopDeclarations members none
  | _, _ => recursiveDeclarations functions (idents.zip codes)

/-! ## Terms -/

mutual

/-- Whether a term is an expression without a function that is called where it stands. -/
def isSimple {α : Type} : Term α → Bool
  | .letIn .. | .letRec .. | .fail .. => false
  | .branch _ arms default => armsSimple arms && isSimple default
  | _ => true

/-- Whether the bodies of arms are such expressions. -/
def armsSimple {α : Type} : List (Term α × Term α) → Bool
  | [] => true
  | (_, body) :: rest => isSimple body && armsSimple rest

end

mutual

/-- The ways to lower a term in a context. -/
def code (c : Context) : Analyzed → Code
  | .global _ q => .ofValue (pure (globalExpr c q))
  | .bound _ b => .ofValue do return .ident (← nameOf b)
  | .lit _ value => .ofValue (pure (literalExpr value))
  | .array _ items =>
    let items := valueCodes c items
    .ofValue do return .array (← all items)
  | .record _ fields =>
    let fields := fieldCodes c fields
    .ofObject do return .object (← all fields)
  | .app _ .curried head args =>
    appCode (head.ref?.map (Ref.within c.name)) (code c head).value (valueCodes c args)
  | .app _ .uncurried head args =>
    .ofValue (callAll (code c head).value (valueCodes c args))
  | .app _ .effectful head args => effectAppCode (code c head).value (valueCodes c args)
  | .abs _ .curried params body => curriedCode params (code c body)
  | .abs _ .uncurried params body => arrowCode params ((code c body).block .plain)
  | .abs _ .effectful params body => arrowCode params ((code c body).block .effectful)
  | .access _ subject accessor =>
    let subject := (code c subject).value
    .ofValue do return accessExpr (← subject) accessor
  | .update _ subject fields =>
    let subject := (code c subject).value
    let fields := fieldCodes c fields
    .ofObject do
      -- fields written after the copied ones replace them
      let x ← subject
      return .object (.spread x :: (← all fields))
  | .construct _ _ tag fields =>
    let fields := fieldCodes c fields
    .ofObject do return .object (tagField tag :: (← all fields))
  | .constructor _ tag fields =>
    .ofValue do return constructorExpr tag fields (← freshNames fields)
  | .letIn _ b value body => letCode b (code c value) (code c body)
  | .letRec a level bindings body =>
    let members := groupRefs level bindings
    let binders : List Binder := bindings.map fun b => ⟨some b.1, level⟩
    let codes := bindingCodes c bindings
    let body := code c body
    .ofBlock fun mode => do
      let declarations ← groupDeclarations (a.isLoop && c.loops)
        (bindings.all fun b => isFunction b.2) members binders codes
      let rest ← body.block mode
      return declarations ++ rest
  | .bindEffect _ b effect body => bindCode b (code c effect) (code c body)
  | .pureEffect _ value => pureCode (code c value)
  | .deferEffect _ effect => deferCode (code c effect)
  | .branch _ arms default =>
    branchCode (armsSimple arms && isSimple default) (armCodes c arms) (code c default)
  | .test _ subject guard =>
    let subject := (code c subject).value
    .ofValue do return testExpr (← subject) guard
  | .unary _ op operand =>
    let operand := (code c operand).value
    .ofValue do return .unary op (← operand)
  | .binary _ op left right =>
    let left := (code c left).value
    let right := (code c right).value
    .ofValue do
      let x ← left
      let y ← right
      return .binary op x y
  | .undefined _ => .ofReturn (pure .undefined) (pure .retUndefined)
  | .fail _ message => .ofBlock fun _ => pure [failure message]

/-- Terms lowered as expressions. -/
def valueCodes (c : Context) : List Analyzed → List (Lowering Script.Expr)
  | [] => []
  | t :: rest => (code c t).value :: valueCodes c rest

/-- Named terms lowered as fields of an object. -/
def fieldCodes (c : Context) : List (String × Analyzed) → List (Lowering Field)
  | [] => []
  | (key, t) :: rest =>
    let value := (code c t).value
    (do return .field key (← value)) :: fieldCodes c rest

/-- Bindings, each with all the ways to lower it. -/
def bindingCodes (c : Context) : List (String × Analyzed) → List Code
  | [] => []
  | (_, t) :: rest => code c t :: bindingCodes c rest

/-- Arms, each with all the ways to lower it. -/
def armCodes (c : Context) : List (Analyzed × Analyzed) → List (Code × Code)
  | [] => []
  | (cond, body) :: rest => (code c cond, code c body) :: armCodes c rest

end

/-! ## Parts of terms -/

/-- Terms are lowered one by one. -/
@[simp] theorem valueCodes_eq_map (c : Context) (ts : List Analyzed) :
    valueCodes c ts = ts.map fun t => (code c t).value := by
  induction ts with
  | nil => rfl
  | cons t rest ih => rw [valueCodes, ih, List.map_cons]

/-- Fields are lowered one by one. -/
@[simp] theorem fieldCodes_eq_map (c : Context) (fields : List (String × Analyzed)) :
    fieldCodes c fields = fields.map fun f => do return .field f.1 (← (code c f.2).value) := by
  induction fields with
  | nil => rfl
  | cons f rest ih => rw [fieldCodes, ih, List.map_cons]

/-- Bindings are lowered one by one. -/
@[simp] theorem bindingCodes_eq_map (c : Context) (bindings : List (String × Analyzed)) :
    bindingCodes c bindings = bindings.map fun b => code c b.2 := by
  induction bindings with
  | nil => rfl
  | cons b rest ih => rw [bindingCodes, ih, List.map_cons]

/-- The terms of bindings are lowered one by one. -/
theorem bindingCodes_eq (c : Context) (bindings : List (String × Analyzed)) :
    bindingCodes c bindings = (bindings.map Prod.snd).map (code c) := by
  rw [bindingCodes_eq_map, List.map_map]
  rfl

/-- Arms are lowered one by one. -/
@[simp] theorem armCodes_eq_map (c : Context) (arms : List (Analyzed × Analyzed)) :
    armCodes c arms = arms.map fun arm => (code c arm.1, code c arm.2) := by
  induction arms with
  | nil => rfl
  | cons arm rest ih => rw [armCodes, ih, List.map_cons]

end TailLoop.Lower
