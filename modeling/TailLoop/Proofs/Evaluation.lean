import TailLoop.Proofs.Emission

/-!
# Running scripts

What scripts compute. Expressions evaluate to values, statements end in one of several ways, and
both work on a store of cells, one for each declaration that was entered; a scope says which cell a
visible name has. Functions keep the scope they were built in. Blocks have scopes of their own, a
name cannot be read before its declaration has run, and constants cannot be assigned.

Values without parts and the operators on them are left open: they are given by `Primitives`. An
operator sees everything of its operands but the code of functions.

Calls and loops do not follow the structure of the script. They are run by an `Engine`, and
`engine n` is the one that gives up when calls and rounds of loops are nested deeper than `n`. A
script that comes to an end does so with some engine.

* `eval`, `exec`: expressions and statements, given an engine.
* `engine`: the engines.
* `Module.Ends`: what calling a name of a module comes to.
-/

namespace TailLoop.Script

/-- The visible names, each with the number of its cell in the `Store`, the innermost first. -/
abbrev Scope := List (String × Nat)

/-- What an expression evaluates to; values without parts are taken from `S`. -/
inductive Val (S : Type) where
  | scalar (value : S)
  | array (items : List (Val S))
  | object (fields : List (String × Val S))
  /-- An error that can be thrown. -/
  | error (message : Val S)
  /-- A function with the scope it was built in. -/
  | function (params : List String) (body : List Stmt) (scope : Scope)

namespace Val

variable {S : Type}

instance : Inhabited (Val S) := ⟨.array []⟩

mutual

/-- The value with all functions in it made alike, so that operators cannot tell them apart. -/
def mask : Val S → Val S
  | .scalar s => .scalar s
  | .array items => .array (maskAll items)
  | .object fields => .object (maskFields fields)
  | .error message => .error message.mask
  | .function .. => .function [] [] []

/-- `mask` of every value. -/
def maskAll : List (Val S) → List (Val S)
  | [] => []
  | v :: rest => v.mask :: maskAll rest

/-- `mask` of every named value. -/
def maskFields : List (String × Val S) → List (String × Val S)
  | [] => []
  | (key, v) :: rest => (key, v.mask) :: maskFields rest

end

mutual

/-- There is no function in the value. -/
def isData : Val S → Bool
  | .scalar _ => true
  | .array items => isDataAll items
  | .object fields => isDataFields fields
  | .error message => message.isData
  | .function .. => false

/-- There is no function in any of the values. -/
def isDataAll : List (Val S) → Bool
  | [] => true
  | v :: rest => v.isData && isDataAll rest

/-- There is no function in any of the named values. -/
def isDataFields : List (String × Val S) → Bool
  | [] => true
  | (_, v) :: rest => v.isData && isDataFields rest

end

end Val

/-- The values without parts, `S`, and what the operators and the properties of values are.
Operators are given values under `Val.mask`. What is not defined stops the script. -/
structure Primitives (S : Type) where
  undefined : S
  boolean : Bool → S
  int : Int64 → S
  number : Float → S
  text : String → S
  /-- Whether a value counts as true. -/
  truthy : S → Bool
  /-- Truth values count as what they are. -/
  truthy_boolean : ∀ b, truthy (boolean b) = b
  unary : UnaryOp → Val S → Option S
  binary : BinaryOp → Val S → Val S → Option S
  /-- A property of a value that is not one of its fields. -/
  property : Val S → String → Option S
  /-- The position in an array that a value means. -/
  position : S → Option Nat
  /-- What is found in a value at a place where it has no element. -/
  element : Val S → Val S → Option S
  /-- The fields of a value without parts. -/
  fields : S → List (String × S)

/-- The operators tell apart the first `n` numbers: two of them are equal if they are the same. -/
def Primitives.TellsApart {S : Type} (P : Primitives S) (n : Nat) : Prop :=
  ∀ i j, i < n → j < n →
    P.binary .eq (.scalar (P.int (Int64.ofNat i))) (.scalar (P.int (Int64.ofNat j))) =
      some (P.boolean (decide (i = j)))

/-- A place where a value is kept, by what can still happen to it. -/
inductive Cell (S : Type) where
  /-- The declaration has not run. -/
  | empty
  /-- The value of a constant. -/
  | constant (value : Val S)
  /-- The value of something that can be assigned. -/
  | assignable (value : Val S)

namespace Cell

variable {S : Type}

/-- The value in a cell; an `empty` one has none yet. -/
def value? : Cell S → Option (Val S)
  | empty => none
  | constant v | assignable v => some v

/-- The cell of a constant after its declaration with the value `v`. -/
def fix (v : Val S) : Cell S → Option (Cell S)
  | empty => some (constant v)
  | _ => none

/-- The cell of a variable after its declaration with the value `v`. -/
def start (v : Val S) : Cell S → Option (Cell S)
  | empty => some (assignable v)
  | _ => none

/-- The cell of a variable after the assignment of `v`; constants cannot be assigned. -/
def assign (v : Val S) : Cell S → Option (Cell S)
  | assignable _ => some (assignable v)
  | _ => none

end Cell

/-- All cells, by the numbers that a `Scope` refers to. -/
abbrev Store (S : Type) := List (Cell S)

/-- A computation on the store: it stops without a result, throws a value, or ends with a result of
type `α`. -/
abbrev Compute (S : Type) := StateT (Store S) (ExceptT (Val S) Option)

namespace Compute

variable {S : Type} {α β : Type}

/-- Stops without a result, and without throwing. -/
def stuck : Compute S α := fun _ => none

/-- Throws the value `v`. -/
def raise (v : Val S) : Compute S α := fun _ => some (.error v)

/-- The result, if there is one, or `stuck`. -/
def given : Option α → Compute S α
  | some a => pure a
  | none => stuck

/-- What `x` comes to in the store `s`, without the store after it. -/
def outcome? (x : Compute S α) (s : Store S) : Option (Except (Val S) α) :=
  match x s with
  | none => none
  | some (.error w) => some (.error w)
  | some (.ok (a, _)) => some (.ok a)

end Compute

/-- How statements end: normally, with the start of the next round, or with a returned value. -/
inductive Completion (S : Type) where
  /-- The statements after them come next. -/
  | normal
  /-- The next round of the loop comes next. -/
  | again
  /-- The function returns. -/
  | returned (value : Val S)

/-- The scope `ρ` where `names` are visible as well. -/
def extend (ρ : Scope) (names : List (String × Nat)) : Scope := names.reverse ++ ρ

namespace Compute

variable {S : Type}

/-- Makes `cells` for `names`, behind those that are there, and gives the scope in which they are
visible. -/
def enterWith (ρ : Scope) (names : List String) (cells : List (Cell S)) : Compute S Scope :=
  fun s => some (.ok (extend ρ (names.zipIdx s.length), s ++ cells))

/-- The scope of `block`: an empty cell for each name that it declares. -/
def enterBlock (ρ : Scope) (block : List Stmt) : Compute S Scope :=
  enterWith ρ (declared block) ((declared block).map fun _ => .empty)

/-- The value of the name `x`; a name without a value stops the script. -/
def read (ρ : Scope) (x : String) : Compute S (Val S) := fun s =>
  match (ρ.lookup x).bind fun ℓ => s[ℓ]?.bind Cell.value? with
  | some v => some (.ok (v, s))
  | none => none

/-- Changes the cell of the name `x` by `change`, where that is allowed. -/
def write (ρ : Scope) (x : String) (change : Cell S → Option (Cell S)) : Compute S Unit := fun s =>
  match ρ.lookup x with
  | none => none
  | some ℓ =>
    match s[ℓ]?.bind change with
    | some c => some (.ok ((), s.set ℓ c))
    | none => none

end Compute

/-- What runs calls and loops. Everything else follows the structure of scripts. -/
structure Engine (S : Type) where
  /-- Calls a value with arguments. -/
  call : Val S → List (Val S) → Compute S (Val S)
  /-- Repeats a block. -/
  loop : Scope → List Stmt → Compute S (Completion S)

section

variable {S : Type} (P : Primitives S)

namespace Val

/-- The value counts as true. -/
def holds : Val S → Bool
  | .scalar s => P.truthy s
  | _ => true

/-- The property `p` of the value `v`: its field of that name, or else what `P` says. -/
def property (v : Val S) (p : String) : Option (Val S) :=
  let other := (P.property v.mask p).map .scalar
  match v with
  | .object fields => (fields.lookup p).orElse fun _ => other
  | _ => other

/-- What is found in the value `v` at the place `i`. -/
def element (v i : Val S) : Option (Val S) :=
  let other := (P.element v.mask i.mask).map .scalar
  match v, i with
  | .array items, .scalar s => ((P.position s).bind fun n => items[n]?).orElse fun _ => other
  | _, _ => other

/-- The fields that a spread copies from a value into an object. -/
def ownFields : Val S → List (String × Val S)
  | .scalar s => (P.fields s).map fun f => (f.1, .scalar f.2)
  | .array items => items.zipIdx.map fun p => (Decimal.digitsText p.2, p.1)
  | .object fields => fields
  | .error _ | .function .. => []

end Val

/-- Sets the field `key`; one that is there keeps its place. -/
def setField (key : String) (v : Val S) : List (String × Val S) → List (String × Val S)
  | [] => [(key, v)]
  | (k, w) :: rest => if k = key then (k, v) :: rest else (k, w) :: setField key v rest

/-- Sets the fields `news`, one after the other. -/
def setFields (fields : List (String × Val S)) (news : List (String × Val S)) :
    List (String × Val S) :=
  news.foldl (fun fs f => setField f.1 f.2 fs) fields

/-- The expression is the class of errors, which every script sees unless it declares the name. -/
def isErrorClass (ρ : Scope) : Expr → Bool
  | .ident x => x == "Error" && (ρ.lookup x).isNone
  | _ => false

mutual

/-- Evaluates an expression. Calls are run by `call`. -/
def eval (call : Val S → List (Val S) → Compute S (Val S)) (ρ : Scope) : Expr → Compute S (Val S)
  | .ident x => .read ρ x
  | .int i => pure (.scalar (P.int i))
  | .number x => pure (.scalar (P.number x))
  | .text s => pure (.scalar (P.text s))
  | .boolean b => pure (.scalar (P.boolean b))
  | .undefined => pure (.scalar P.undefined)
  | .array es => do return .array (← evalAll call ρ es)
  | .object fs => do return .object (← evalFields call ρ [] fs)
  | .access e p => do
    let v ← eval call ρ e
    .given (v.property P p)
  | .index e i => do
    let v ← eval call ρ e
    let w ← eval call ρ i
    .given (v.element P w)
  | .call f es => do
    let v ← eval call ρ f
    let vs ← evalAll call ρ es
    call v vs
  | .new f es =>
    if isErrorClass ρ f then do
      let vs ← evalAll call ρ es
      return .error (vs.headD (.scalar P.undefined))
    else .stuck
  | .arrow params body => pure (.function params body ρ)
  | .unary op e => do
    let v ← eval call ρ e
    .given ((P.unary op v.mask).map .scalar)
  | .binary op e e' =>
    match op with
    | .and => do
      let v ← eval call ρ e
      if v.holds P then eval call ρ e' else pure v
    | .or => do
      let v ← eval call ρ e
      if v.holds P then pure v else eval call ρ e'
    | op => do
      let v ← eval call ρ e
      let w ← eval call ρ e'
      .given ((P.binary op v.mask w.mask).map .scalar)
  | .conditional e yes no => do
    let v ← eval call ρ e
    if v.holds P then eval call ρ yes else eval call ρ no

/-- Evaluates expressions from left to right. -/
def evalAll (call : Val S → List (Val S) → Compute S (Val S)) (ρ : Scope) :
    List Expr → Compute S (List (Val S))
  | [] => pure []
  | e :: es => do
    let v ← eval call ρ e
    let vs ← evalAll call ρ es
    return v :: vs

/-- Evaluates the parts of an object literal, which set fields of what was `built` so far. -/
def evalFields (call : Val S → List (Val S) → Compute S (Val S)) (ρ : Scope)
    (built : List (String × Val S)) : List Field → Compute S (List (String × Val S))
  | [] => pure built
  | .field key e :: fs => do
    let v ← eval call ρ e
    evalFields call ρ (setField key v built) fs
  | .spread e :: fs => do
    let v ← eval call ρ e
    evalFields call ρ (setFields built (v.ownFields P)) fs

end

mutual

/-- Executes statements in the scope of their block, up to the first that does not end normally. -/
def exec (G : Engine S) (ρ : Scope) : List Stmt → Compute S (Completion S)
  | [] => pure .normal
  | s :: rest => do
    match ← execStmt G ρ s with
    | .normal => exec G ρ rest
    | c => pure c

/-- Executes a statement. The rounds of a loop are run by `G`. -/
def execStmt (G : Engine S) (ρ : Scope) : Stmt → Compute S (Completion S)
  | .const x e => do
    let v ← eval P G.call ρ e
    Compute.write ρ x (Cell.fix v)
    return .normal
  | .declare x none => do
    Compute.write ρ x (Cell.start (.scalar P.undefined))
    return .normal
  | .declare x (some e) => do
    let v ← eval P G.call ρ e
    Compute.write ρ x (Cell.start v)
    return .normal
  | .assign x e => do
    let v ← eval P G.call ρ e
    Compute.write ρ x (Cell.assign v)
    return .normal
  | .expr e => do
    let _ ← eval P G.call ρ e
    return .normal
  | .chain arms => execArms G ρ arms
  | .loop body => G.loop ρ body
  | .again => pure .again
  | .ret e | .retObject e => do return .returned (← eval P G.call ρ e)
  | .retUndefined => pure (.returned (.scalar P.undefined))
  | .throw e => do
    let v ← eval P G.call ρ e
    .raise v

/-- Executes the block of the first condition that holds, if there is one. -/
def execArms (G : Engine S) (ρ : Scope) : List (Expr × List Stmt) → Compute S (Completion S)
  | [] => pure .normal
  | (cond, block) :: rest => do
    let v ← eval P G.call ρ cond
    if v.holds P then do
      let ρ' ← Compute.enterBlock ρ block
      exec G ρ' block
    else execArms G ρ rest

end

/-- Executes `block` in a scope of its own. -/
def execBlock (G : Engine S) (ρ : Scope) (block : List Stmt) : Compute S (Completion S) := do
  let ρ' ← Compute.enterBlock ρ block
  exec P G ρ' block

/-- What a function returns whose body ended so: `undefined` where it did not return. -/
def conclude : Completion S → Compute S (Val S)
  | .normal => pure (.scalar P.undefined)
  | .again => .stuck
  | .returned v => pure v

/-- The cells of parameters. Missing arguments are `undefined`, and more are ignored. -/
def paramCells : List String → List (Val S) → List (Cell S)
  | [], _ => []
  | _ :: ps, vs => .assignable (vs.headD (.scalar P.undefined)) :: paramCells ps vs.tail

/-- Calls a function, whose body runs in the scope it was built in. -/
def invoke (G : Engine S) : Val S → List (Val S) → Compute S (Val S)
  | .function params body ρ, vs => do
    let ρ' ← .enterWith ρ params (paramCells P params vs)
    let c ← execBlock P G ρ' body
    conclude P c
  | _, _ => .stuck

/-- The engine that gives up when calls and rounds are nested deeper than `n`. -/
def engine : Nat → Engine S
  | 0 => ⟨fun _ _ => .stuck, fun _ _ => .stuck⟩
  | n + 1 =>
    { call := invoke P (engine n)
      loop := fun ρ body => do
        match ← execBlock P (engine n) ρ body with
        | .returned v => pure (.returned v)
        | _ => (engine n).loop ρ body }

/-- Calls a value with lists of arguments, one list after the other. -/
def callChain (G : Engine S) : Val S → List (List (Val S)) → Compute S (Val S)
  | v, [] => pure v
  | v, args :: rest => do
    let w ← G.call v args
    callChain G w rest

/-- Runs the declarations of `m`, given what its imports are by `link`, and calls the name `x`. -/
def Module.runCalls (G : Engine S) (m : Module) (link : Import → Val S) (x : String)
    (calls : List (List (Val S))) : Compute S (Val S) := do
  let ρ ← .enterWith [] (m.imports.map Import.name) (m.imports.map fun i => .constant (link i))
  let ρ' ← .enterBlock ρ m.declarations
  match ← exec P G ρ' m.declarations with
  | .normal => do
    let v ← .read ρ' x
    callChain G v calls
  | _ => .stuck

/-- Some engine is large enough for `Module.runCalls` to come to this `outcome`. -/
def Module.Ends (m : Module) (link : Import → Val S) (x : String) (calls : List (List (Val S)))
    (outcome : Except (Val S) (Val S)) : Prop :=
  ∃ n, (m.runCalls P (engine P n) link x calls).outcome? [] = some outcome

/-- There is no function in what was thrown or returned. -/
def isDataOutcome : Except (Val S) (Val S) → Bool
  | .error v | .ok v => v.isData

end

end TailLoop.Script
