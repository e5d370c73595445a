import TailLoop.Lower.Module
import TailLoop.Proofs.LoopCalls

/-!
# Terms and the scripts that stand for them

Scripts have block scope: a block declares its names as a whole, the parameters of a function
together with its body, and a name refers to its innermost declaration. The relations of this module
say how a script stands for a term, and at every identifier that it refers to the right declaration.
Visible declarations are numbered from the outermost to the innermost, and a `Naming` says which
declaration belongs to which binder in scope.

* `resolve`: the declaration that a name refers to.
* `Emit.Value`, `Emit.Run`, `Emit.Block`: expressions, effects and blocks that stand for a term.
* `Emit.Group`: the declarations that stand for a recursive group of bindings.
* `Emit.Module`: scripts that stand for a unit.
-/

namespace TailLoop.Script

/-- The name that a `const` or a `let` declares in its block. -/
def Stmt.declares? : Stmt → Option String
  | .const x _ | .declare x _ => some x
  | _ => none

/-- The names that the statements of `block` declare. -/
def declared (block : List Stmt) : List String := block.filterMap Stmt.declares?

/-- The visible names where `names` are declared inside `Γ`; innermost declarations come first. -/
def enter (Γ names : List String) : List String := names.reverse ++ Γ

/-- The number of the declaration that the name `x` refers to, counted from the outermost one. -/
def resolve (x : String) : List String → Option Nat
  | [] => none
  | y :: Γ => if y = x then some Γ.length else resolve x Γ

/-- The names that the module `m` declares or imports. -/
def Module.names (m : Module) : List String := m.imports.map Import.name ++ declared m.declarations

end TailLoop.Script

namespace TailLoop

/-- Whether a term is an effect, which is written as a function without parameters. -/
def Term.isEffect {α : Type} : Term α → Bool
  | .app _ .effectful _ _ | .bindEffect .. | .pureEffect .. | .deferEffect .. => true
  | _ => false

/-- Whether the block of a term is not a single statement that returns its `value`. -/
def Term.isStatement {α : Type} : Term α → Bool
  | .letIn .. | .letRec .. | .branch .. | .fail .. => true
  | _ => false

/-- Whether a term is no top-level name, or one that the module of `c` does not take from
outside. -/
def Term.isLocalIn {α : Type} (c : Lower.Context) : Term α → Bool
  | .global _ q => !c.isForeign q.ident
  | _ => true

namespace Lower

open Script

/-- The identifier with which `globalExpr c q` starts. -/
def globalHead (c : Context) (q : Qualified) : String :=
  match c.isLocal q, q.module with
  | false, some m => moduleAlias m
  | _, _ => if c.isForeign q.ident then foreignAlias else q.ident

/-- The statement that returns the value of `t`, which is written as `e`. -/
def returnStmt {α : Type} (t : Term α) (e : Script.Expr) : Stmt :=
  match t with
  | .undefined _ => .retUndefined
  | t => if t.isObject then .retObject e else .ret e

/-- Assigns the `selector` and the `slots` of a loop and starts its next round. -/
def jumpBlock (selector : Option String) (member : Nat) (slots : List String)
    (values : List Script.Expr) : List Stmt :=
  (selector.map fun x => Stmt.assign x (natLit member)).toList
    ++ (slots.zip values).map (fun p => .assign p.1 p.2) ++ [.again]

/-- The function of `copies` that enters a shared loop `label` with the number of a `member`. -/
def entryFunction (label : String) (member : Nat) (copies : List String) : Script.Expr :=
  .curried copies [.ret (.call (.ident label) (natLit member :: copies.map .ident))]

end Lower

namespace Emit

open Script Lower

/-- The binders in scope, each with the number of its declaration. -/
abbrev Naming := List (Binder × Nat)

/-- The declaration that a reference means where `Γ₀` are the names of the module. -/
def declaration? (Γ₀ : List String) (σ : Naming) : Ref → Option Nat
  | .bound b => σ.lookup b
  | .global q => resolve q.ident Γ₀

/-- A loop around a block: its members, and the numbers of their declarations and of the loop's
variables. -/
structure LoopFrame where
  /-- The members of the loop with their numbers of parameters. -/
  members : List (Ref × Nat)
  /-- The declarations of the members. -/
  functions : List Nat
  /-- The declaration of the selector, if there are several members. -/
  selector : Option Nat
  /-- The declarations of the slots. -/
  slots : List Nat

/-- What a block is for. -/
inductive Purpose where
  /-- It returns the value of its term. -/
  | plain
  /-- It runs its term as an effect. -/
  | effect
  /-- It is the body of a loop. -/
  | loop (frame : LoopFrame)

/-- What surrounds a script: the module that is lowered, the names that are visible in all of the
script, whether the unit is closed, and a bound for the sizes of recursive groups. -/
structure Setting where
  /-- The module. -/
  context : Context
  /-- The names of the module. -/
  names : List String
  /-- Whether the unit leaves the name of errors alone and refers to itself only. -/
  closed : Prop
  /-- The largest number of members of a group. -/
  size : Nat

/-- The functions that enter the shared function `label`, from a position on. Their parameters do
not hide it. -/
inductive Entries (Γ : List String) (label : String) (shared : Nat) :
    Nat → List String → List Analyzed → List Stmt → Prop
  | nil {i : Nat} : Entries Γ label shared i [] [] []
  | cons {i : Nat} {x : String} {idents copies : List String} {t : Analyzed} {ts : List Analyzed}
      {rest : List Stmt} :
      copies.length = t.params.length → copies.Nodup →
      resolve label (enter Γ copies) = some shared →
      Entries Γ label shared (i + 1) idents ts rest →
      Entries Γ label shared i (x :: idents) (t :: ts)
        (.const x (entryFunction label i copies) :: rest)

section

variable (E : Setting)

mutual

/-- An expression stands for the value of a term where `Γ` is visible and binders are declared as
the naming says. -/
inductive Value : List String → Naming → Analyzed → Script.Expr → Prop
  /-- A top-level name refers to the module, not to a declaration inside it. -/
  | global {Γ σ a q k} : resolve (globalHead E.context q) E.names = some k →
      resolve (globalHead E.context q) Γ = some k →
      Value Γ σ (.global a q) (globalExpr E.context q)
  /-- A variable refers to the declaration of its binder. -/
  | bound {Γ σ a b k x} : σ.lookup b = some k → resolve x Γ = some k →
      Value Γ σ (.bound a b) (.ident x)
  | lit {Γ σ a v} : Value Γ σ (.lit a v) (literalExpr v)
  | array {Γ σ a ts es} : Values Γ σ ts es → Value Γ σ (.array a ts) (.array es)
  | record {Γ σ a fields fs} : Fields Γ σ fields fs → Value Γ σ (.record a fields) (.object fs)
  | construct {Γ σ a type tag fields fs} : Fields Γ σ fields fs →
      Value Γ σ (.construct a type tag fields) (.object (tagField tag :: fs))
  | update {Γ σ a t e fields fs} : Value Γ σ t e → Fields Γ σ fields fs →
      Value Γ σ (.update a t fields) (.object (.spread e :: fs))
  | constructor {Γ σ a tag fields names} : names.length = fields.length → names.Nodup →
      Value Γ σ (.constructor a tag fields) (constructorExpr tag fields names)
  | apply {Γ σ a head f args es} : Value Γ σ head f → Values Γ σ args es →
      Value Γ σ (.app a .curried head args) (es.foldl (fun f e => .call f [e]) f)
  | applyAll {Γ σ a head f args es} : Value Γ σ head f → Values Γ σ args es →
      Value Γ σ (.app a .uncurried head args) (.call f es)
  | curried {Γ σ a params body names block} : names.length = params.length → names.Nodup →
      Body .plain names (enter Γ names) (params.zipIdx Γ.length ++ σ) body block →
      Value Γ σ (.abs a .curried params body) (.curried names block)
  | arrow {Γ σ a params body names block} : names.length = params.length → names.Nodup →
      Body .plain names (enter Γ names) (params.zipIdx Γ.length ++ σ) body block →
      Value Γ σ (.abs a .uncurried params body) (.arrow names block)
  | effectArrow {Γ σ a params body names block} : names.length = params.length → names.Nodup →
      Body .effect names (enter Γ names) (params.zipIdx Γ.length ++ σ) body block →
      Value Γ σ (.abs a .effectful params body) (.arrow names block)
  | access {Γ σ a t e accessor} : Value Γ σ t e →
      Value Γ σ (.access a t accessor) (accessExpr e accessor)
  | test {Γ σ a t e guard} : Value Γ σ t e → Value Γ σ (.test a t guard) (testExpr e guard)
  | unary {Γ σ a op t e} : Value Γ σ t e → Value Γ σ (.unary a op t) (.unary op e)
  | binary {Γ σ a op t e t' e'} : Value Γ σ t e → Value Γ σ t' e' →
      Value Γ σ (.binary a op t t') (.binary op e e')
  | undefined {Γ σ a} : Value Γ σ (.undefined a) .undefined
  | conditional {Γ σ a arms default e} : (isSimple (.branch a arms default) = true) →
      Conditional Γ σ arms default e → Value Γ σ (.branch a arms default) e
  /-- A block that is called where it stands. -/
  | block {Γ σ t block} : isSimple t = false → Body .plain [] Γ σ t block →
      Value Γ σ t (.immediate block)
  /-- An effect is a function that runs it. -/
  | effect {Γ σ t block} : t.isEffect = true → Body .effect [] Γ σ t block →
      Value Γ σ t (.arrow [] block)

/-- `Run Γ σ t e`: the expression `e` runs the effect `t`. -/
inductive Run : List String → Naming → Analyzed → Script.Expr → Prop
  | value {Γ σ t e} : t.isEffect = false → Value Γ σ t e → Run Γ σ t (.call e [])
  | apply {Γ σ a head f args es} : Value Γ σ head f → Values Γ σ args es →
      Run Γ σ (.app a .effectful head args) (.call f es)
  | pure {Γ σ a t e} : Value Γ σ t e → Run Γ σ (.pureEffect a t) e
  | bind {Γ σ a b t t' block} : Body .effect [] Γ σ (.bindEffect a b t t') block →
      Run Γ σ (.bindEffect a b t t') (.immediate block)
  | defer {Γ σ a t block} : Body .effect [] Γ σ t block →
      Run Γ σ (.deferEffect a t) (.immediate block)

/-- The expressions stand for the values of the terms, one by one. -/
inductive Values : List String → Naming → List Analyzed → List Script.Expr → Prop
  | nil {Γ σ} : Values Γ σ [] []
  | cons {Γ σ t e ts es} : Value Γ σ t e → Values Γ σ ts es → Values Γ σ (t :: ts) (e :: es)

/-- The parts of an object literal stand for the named terms, one by one. -/
inductive Fields : List String → Naming → List (String × Analyzed) → List Field → Prop
  | nil {Γ σ} : Fields Γ σ [] []
  | cons {Γ σ key t e fields fs} : Value Γ σ t e → Fields Γ σ fields fs →
      Fields Γ σ ((key, t) :: fields) (.field key e :: fs)

/-- `Conditional Γ σ arms default e`: the conditional expression `e` stands for the arms of a
branch. -/
inductive Conditional : List String → Naming → List (Analyzed × Analyzed) → Analyzed →
    Script.Expr → Prop
  | default {Γ σ t e} : Value Γ σ t e → Conditional Γ σ [] t e
  | arm {Γ σ cond x body y arms default z} : Value Γ σ cond x → Value Γ σ body y →
      Conditional Γ σ arms default z →
      Conditional Γ σ ((cond, body) :: arms) default (.conditional x y z)

/-- A block of its own, after the parameters of a function if there are some, and `Block` inside. No
name is declared twice. -/
inductive Body : Purpose → List String → List String → Naming → Analyzed → List Stmt → Prop
  | mk {p names Γ σ t block} : (names ++ declared block).Nodup →
      Block p (enter Γ (declared block)) σ t block → Body p names Γ σ t block

/-- `Block p Γ σ t b`: the statements `b` stand for `t` in a block for `p` that declares the
innermost names of `Γ`. -/
inductive Block : Purpose → List String → Naming → Analyzed → List Stmt → Prop
  | returned {Γ σ t e} : t.isStatement = false → Value Γ σ t e →
      Block .plain Γ σ t [returnStmt t e]
  | loopReturned {frame Γ σ t e} : t.isStatement = false → Value Γ σ t e →
      Block (.loop frame) Γ σ t [returnStmt t e]
  | runReturned {Γ σ t e} : t.isStatement = false → t.isEffect = false → Value Γ σ t e →
      Block .effect Γ σ t [.ret (.call e [])]
  | applyReturned {Γ σ a head f args es} : Value Γ σ head f → Values Γ σ args es →
      Block .effect Γ σ (.app a .effectful head args) [.ret (.call f es)]
  | bindNamed {Γ σ a b t e body x k rest} : b.name.isSome = true → Run Γ σ t e →
      resolve x Γ = some k → Block .effect Γ ((b, k) :: σ) body rest →
      Block .effect Γ σ (.bindEffect a b t body) (.const x e :: rest)
  | bindUnnamed {Γ σ a b t e body rest} : b.name = none → Run Γ σ t e →
      Block .effect Γ σ body rest → Block .effect Γ σ (.bindEffect a b t body) (.expr e :: rest)
  | pure {Γ σ a t e} : Value Γ σ t e → Block .effect Γ σ (.pureEffect a t) [returnStmt t e]
  | defer {Γ σ a t block} : Block .effect Γ σ t block → Block .effect Γ σ (.deferEffect a t) block
  | letIn {p Γ σ a b t e body x k rest} : Value Γ σ t e → resolve x Γ = some k →
      Block p Γ ((b, k) :: σ) body rest → Block p Γ σ (.letIn a b t body) (.const x e :: rest)
  | letRec {p Γ σ a level bindings body idents ks decls rest} :
      idents.length = bindings.length → idents.map (resolve · Γ) = ks.map some →
      Group (a.isLoop && E.context.loops) Γ ((Term.groupBinders level bindings).zip ks ++ σ)
        idents ks (groupRefs level bindings) (bindings.map Prod.snd) decls →
      Block p Γ ((Term.groupBinders level bindings).zip ks ++ σ) body rest →
      Block p Γ σ (.letRec a level bindings body) (decls ++ rest)
  | branch {p Γ σ a arms default blocks rest} : Arms p Γ σ arms blocks →
      Block p Γ σ default rest →
      Block p Γ σ (.branch a arms default)
        ((if blocks.isEmpty then [] else [.chain blocks]) ++ rest)
  /-- The name of errors is not declared anew. -/
  | fail {p Γ σ a message} : (E.closed → resolve "Error" Γ = none) →
      Block p Γ σ (.fail a message) [failure message]
  /-- A call of a member of the loop assigns the slots of the loop. -/
  | jump {frame Γ σ a head args r i k selector slots es} :
      head.refIn? (some E.context.name) = some r → frame.members[i]? = some (r, args.length) →
      (E.closed → head.isLocalIn E.context = true) →
      frame.functions[i]? = some k → declaration? E.names σ r = some k →
      selector.map (resolve · Γ) = frame.selector.map some →
      slots.map (resolve · Γ) = frame.slots.map some → args.length ≤ slots.length →
      Values Γ σ args es →
      Block (.loop frame) Γ σ (.app a .curried head args) (jumpBlock selector i slots es)

/-- The arms of a chain stand for the arms of a branch, each by `Block`. -/
inductive Arms : Purpose → List String → Naming → List (Analyzed × Analyzed) →
    List (Script.Expr × List Stmt) → Prop
  | nil {p Γ σ} : Arms p Γ σ [] []
  | cons {p Γ σ cond x body block arms blocks} : Value Γ σ cond x → Body p [] Γ σ body block →
      Arms p Γ σ arms blocks → Arms p Γ σ ((cond, body) :: arms) ((x, block) :: blocks)

/-- The declarations stand for a recursive group of bindings, as a loop or not. -/
inductive Group : Bool → List String → Naming → List String → List Nat → List Ref →
    List Analyzed → List Stmt → Prop
  | functions {Γ σ idents ks refs ts es} : (ts.all isFunction = true) → Values Γ σ ts es →
      Group false Γ σ idents ks refs ts ((idents.zip es).map fun p => .const p.1 p.2)
  | values {Γ σ idents ks refs ts es} : (ts.all isFunction = false) → Values Γ σ ts es →
      Group false Γ σ idents ks refs ts
        (idents.map (fun x => .declare x none) ++ (idents.zip es).map fun p => .assign p.1 p.2)
  /-- One function around its loop. -/
  | self {Γ σ x k r t copies slots block} : 0 < t.arity →
      copies.length = t.params.length → slots.length = t.params.length → (copies ++ slots).Nodup →
      (declared block).Nodup →
      Member ⟨[(r, t.arity)], [k], none, List.range' (Γ.length + copies.length) slots.length⟩ slots
        (enter (enter (enter Γ copies) slots) (declared block)) σ t block →
      Group true Γ σ [x] [k] [r] [t] [.const x (.curried copies
        ((slots.zip copies).map (fun p => .declare p.1 (some (.ident p.2))) ++ [.loop block]))]
  /-- Several functions that share a loop. -/
  | shared {Γ σ idents ks refs ts label k selector slots block entries} : ts.length ≠ 1 →
      ts.length ≤ E.size →
      (∀ t ∈ ts, 0 < t.arity ∧ t.arity ≤ slots.length) → resolve label Γ = some k →
      (selector :: slots).Nodup → (declared block).Nodup →
      Dispatch ⟨refs.zip (ts.map Term.arity), ks, some Γ.length,
          List.range' (Γ.length + 1) slots.length⟩
        selector slots 0 (enter (enter Γ (selector :: slots)) (declared block)) σ ts block →
      Entries Γ label k 0 idents ts entries →
      Group true Γ σ idents ks refs ts
        (.const label (.arrow (selector :: slots) [.loop block]) :: entries)

/-- The body of a loop member, after constants for its parameters. -/
inductive Member : LoopFrame → List String → List String → Naming → Analyzed → List Stmt → Prop
  | mk {frame slots Γ σ t ks rest} {names : List String} : names.length = t.params.length →
      t.params.length ≤ slots.length → names.map (resolve · Γ) = ks.map some →
      slots.map (resolve · Γ) = frame.slots.map some →
      Block (.loop frame) Γ (t.params.zip ks ++ σ) t.inner rest →
      Member frame slots Γ σ t ((names.zip slots).map (fun p => .const p.1 (.ident p.2)) ++ rest)

/-- The bodies of the members of a shared loop from a position on: all but the last behind a test of
the selector. -/
inductive Dispatch : LoopFrame → String → List String → Nat → List String → Naming →
    List Analyzed → List Stmt → Prop
  | nil {frame selector slots i Γ σ} : Dispatch frame selector slots i Γ σ [] []
  | last {frame selector slots i Γ σ t block} : Member frame slots Γ σ t block →
      Dispatch frame selector slots i Γ σ [t] block
  | cons {frame selector slots i Γ σ t t' ts block rest} : (declared block).Nodup →
      some (resolve selector Γ) = frame.selector.map some →
      Member frame slots (enter Γ (declared block)) σ t block →
      Dispatch frame selector slots (i + 1) Γ σ (t' :: ts) rest →
      Dispatch frame selector slots i Γ σ (t :: t' :: ts)
        (.chain [(.binary .eq (.ident selector) (natLit i), block)] :: rest)

end

/-- The declarations stand for the top-level group `g`. -/
inductive TopGroup (g : AnalyzedGroup) : List Stmt → Prop
  | loop {ks : List Nat} {decls : List Stmt} : g.isLoop = true → E.context.loops = true →
      (g.bindings.map fun b => resolve b.1 E.names) = ks.map some →
      Group E true E.names [] (g.bindings.map Prod.fst) ks (topRefs E.context.name g.bindings)
        (g.bindings.map Prod.snd) decls → TopGroup g decls
  | bindings {es : List Script.Expr} : (g.isLoop && E.context.loops) = false →
      Values E E.names [] (g.bindings.map Prod.snd) es →
      TopGroup g (((g.bindings.map Prod.fst).zip es).map fun p => .const p.1 p.2)

/-- The declarations stand for top-level groups, one after the other. -/
inductive TopGroups : List AnalyzedGroup → List Stmt → Prop
  | nil : TopGroups [] []
  | cons {g : AnalyzedGroup} {gs : List AnalyzedGroup} {decls rest : List Stmt} :
      TopGroup E g decls → TopGroups gs rest → TopGroups (g :: gs) (decls ++ rest)

end

end Emit

/-- The names of the binders in `t`. -/
def Term.identifiers {α : Type} (t : Term α) : List String :=
  t.subterms.flatMap fun s => s.binders.filterMap Binder.name

/-- The names of imported modules, foreign names, top-level names and names of binders of `u`. -/
def CompilationUnit.identifiers (u : CompilationUnit) : List String :=
  u.imports.map Lower.moduleAlias ++ u.foreignNames ++ u.bindings.map Prod.fst
    ++ u.bindings.flatMap fun b => b.2.identifiers

/-- The sizes of the recursive groups in `t`. -/
def Term.groupSizes {α : Type} (t : Term α) : List Nat :=
  t.subterms.map fun
    | .letRec _ _ bindings _ => bindings.length
    | _ => 0

/-- The size of the largest recursive group of `u`. -/
def CompilationUnit.largestGroup (u : CompilationUnit) : Nat :=
  (u.groups.map (fun g => g.bindings.length) ++ u.bindings.flatMap fun b => b.2.groupSizes).foldr
    max 0

/-- Whether the node is no top-level name, or one of `u` itself that is not a foreign name. -/
def Term.ownIn {α : Type} (u : CompilationUnit) : Term α → Bool
  | .global _ q => (q.module = none ∨ q.module = some u.name) && q.ident ∈ u.bindings.map Prod.fst
    && q.ident ∉ u.foreignNames
  | _ => true

/-- The unit `u` is closed: it has no identifier `Error`, and top-level names in it are its own. -/
structure CompilationUnit.Closed (u : CompilationUnit) : Prop where
  /-- No identifier is `Error`. -/
  error : "Error" ∉ u.identifiers
  /-- Top-level names belong to the unit. -/
  globals : ∀ b ∈ u.bindings, b.2.everywhere (fun _ s => s.ownIn u) [] = true

/-- The setting of a script of `u` that declares `names`. -/
def CompilationUnit.setting (u : CompilationUnit) (loops : Bool) (names : List String) :
    Emit.Setting where
  context := .ofUnit u loops
  names := Script.enter [] names
  closed := u.Closed
  size := u.largestGroup

/-- The script `m` stands for the unit `u`: its imports are those of the unit, and its declarations
stand for the groups of the unit where the names of the script are visible. -/
structure Emit.Module (u : CompilationUnit) (loops : Bool) (m : Script.Module) : Prop where
  /-- Imported modules have their aliases. -/
  imports : m.imports = Lower.importList u
  /-- The declarations stand for the groups. -/
  groups : TopGroups (u.setting loops m.names) u.analyze m.declarations

end TailLoop
