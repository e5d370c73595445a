import TailLoop.Lower.Lowering

/-!
# Writing loops

A group of functions that only call each other in tail position becomes a loop: their arguments are
carried in slots, and a call assigns the slots and starts the next round. One member becomes a
function around its loop; several share one function, the dispatcher, whose selector says which
member runs.
-/

namespace TailLoop.Lower

open Script Lowering

/-- A function that is a member of a loop. -/
structure Member where
  /-- The name it is declared under. -/
  ident : String
  /-- What calls of it refer to. -/
  ref : Ref
  /-- Its parameters. -/
  params : List Binder
  /-- Lowers its body as the body of a loop. -/
  body : Lowering (List Stmt)

/-- The number `n` as a script literal. -/
def natLit (n : Nat) : Script.Expr := .int (Int64.ofNat n)

/-- The part of a slot's name that stands for a parameter: its name, or else its position. -/
def paramBase (b : Binder) (position : Nat) : String := b.name.getD (Decimal.digitsText position)

/-- Names made from a beginning and the parameters. -/
def paramBases (start : String) (params : List Binder) : List String :=
  params.zipIdx.map fun p => start ++ paramBase p.1 p.2

/-- Binds parameters to the values of slots. -/
def bindParams : List Binder → List String → Lowering (List Stmt)
  | b :: params, slot :: slots => do
    let name ← bindName b
    let rest ← bindParams params slots
    return .const name (.ident slot) :: rest
  | _, _ => pure []

/-- The names of the parameters of a loop's entry function. -/
def copyNames (params : List Binder) : Lowering (List String) :=
  freshNames (paramBases "$copy_" params)

/-- The body of a member: its parameters, then what it does. -/
def memberBody (m : Member) (slots : List String) : Lowering (List Stmt) := do
  let binds ← bindParams m.params slots
  let body ← m.body
  return binds ++ body

/-- A single function as a loop. -/
def selfLoop (m : Member) : Lowering Script.Expr := do
  let label ← freshName ("$" ++ m.ident)
  let copies ← copyNames m.params
  let slots ← freshNames (paramBases (label ++ "_") m.params)
  let body ← inLoop ⟨label, [(m.ref, m.params.length)], none, slots⟩ (memberBody m slots)
  let start := (slots.zip copies).map fun p => Stmt.declare p.1 (some (.ident p.2))
  return .curried copies (start ++ [.loop body])

/-- The bodies of the members from position `i` on: all but the last behind a test of the
selector. -/
def dispatchBody (selector : String) (slots : List String) (i : Nat) :
    List Member → Lowering (List Stmt)
  | [] => pure []
  | [m] => memberBody m slots
  | m :: rest => do
    let block ← memberBody m slots
    let others ← dispatchBody selector slots (i + 1) rest
    return .chain [(.binary .eq (.ident selector) (natLit i), block)] :: others

/-- The functions that enter a shared loop at the members from position `i` on. -/
def entries (label : String) (i : Nat) : List Member → Lowering (List Stmt)
  | [] => pure []
  | m :: rest => do
    let copies ← copyNames m.params
    let call := Script.Expr.call (.ident label) (natLit i :: copies.map .ident)
    let others ← entries label (i + 1) rest
    return .const m.ident (.curried copies [.ret call]) :: others

/-- The largest number of parameters of a member. -/
def slotCount (members : List Member) : Nat :=
  members.foldl (fun n m => max n m.params.length) 0

/-- Several functions as one loop; `dispatcher` is the name of the shared function if it has one
already. -/
def groupLoop (members : List Member) (dispatcher : Option String) : Lowering (List Stmt) := do
  let names := "_".intercalate (members.map Member.ident)
  report .debug ("lowering group " ++ names ++ " to a loop")
  let label ← match dispatcher with
    | some label => pure label
    | none => freshName ("$" ++ names)
  let selector ← freshName (label ++ "_fn")
  let slots ← freshNames
    ((List.range (slotCount members)).map fun i => label ++ "_" ++ Decimal.digitsText i)
  let scope : LoopScope :=
    ⟨label, members.map fun m => (m.ref, m.params.length), some selector, slots⟩
  let body ← inLoop scope (dispatchBody selector slots 0 members)
  let rest ← entries label 0 members
  return .const label (.arrow (selector :: slots) [.loop body]) :: rest

/-- The declarations of a group that is a loop. -/
def loopDeclarations (members : List Member) (dispatcher : Option String) :
    Lowering (List Stmt) :=
  match members with
  | [m] => do
    report .debug ("lowering " ++ m.ident ++ " to a loop")
    let function ← selfLoop m
    return [.const m.ident function]
  | members => groupLoop members dispatcher

end TailLoop.Lower
