import TailLoop.Json.Decoder
import TailLoop.Term.Encode

/-!
# Terms from JSON

Decoders for terms and their parts. The decoder of terms is built from the decoder of smaller ones;
since every term inside another one lies in at least one more container, the room that is left
bounds how often this is needed.
-/

namespace TailLoop.Decoder

/-- Decodes a top-level name. -/
def qualified : Decoder Qualified :=
  record "Qualified" 2 ((none, none) : Option (Option String) × Option String)
    [field "module" (·.1) (fun s a => (some a, s.2)) (optional text),
     field "ident" (·.2) (fun s a => (s.1, some a)) text]
    (fun s => do return ⟨s.1.getD none, ← require "ident" s.2⟩)
    (do return ⟨← element (optional text), ← element text⟩)

/-- Decodes a parameter. -/
def binder : Decoder Binder :=
  record "Param" 2 ((none, none) : Option (Option String) × Option UInt32)
    [field "name" (·.1) (fun s a => (some a, s.2)) (optional text),
     field "level" (·.2) (fun s a => (s.1, some a)) uint32]
    (fun s => do return ⟨s.1.getD none, ← require "level" s.2⟩)
    (do return ⟨← element (optional text), ← element uint32⟩)

/-- Decodes a record of two fields, both of which must be there. -/
def twoFields {α β : Type} (name first second : String) (d : Decoder α) (e : Decoder β) :
    Decoder (α × β) :=
  record name 2 ((none, none) : Option α × Option β)
    [field first (·.1) (fun s a => (some a, s.2)) d,
     field second (·.2) (fun s b => (s.1, some b)) e]
    (fun s => do return (← require first s.1, ← require second s.2))
    (do return (← element d, ← element e))

/-- An alternative whose name stands alone. -/
def plainName {α : Type} (name : α → String) (a : α) : Alternative α := (name a, .unit a)

/-- Decodes an operator of one operand. -/
def unaryOp : Decoder UnaryOp :=
  choice "UnaryOp" (([.not, .negate, .bitNot] : List UnaryOp).map (plainName UnaryOp.name))

/-- Decodes an operator of two operands. -/
def binaryOp : Decoder BinaryOp :=
  choice "BinaryOp"
    (([.add, .sub, .mul, .div, .mod, .eq, .notEq, .lt, .lte, .gt, .gte, .and, .or] :
      List BinaryOp).map (plainName BinaryOp.name))

/-- An alternative followed by one value. -/
def holding {α β : Type} (name : String) (f : α → β) (d : Decoder α) : Alternative β :=
  (name, .value fun room j => f <$> d room j)

/-- Decodes an accessor. -/
def accessor : Decoder Accessor :=
  choice "Accessor"
    [holding "Prop" .property text,
     holding "Index" .index uint64,
     ("CtorField", .elements 2 do return .field (← element text) (← element text))]

/-- Decodes a guard. -/
def guarding : Decoder Guard :=
  choice "Guard"
    [holding "Number" .number float,
     holding "Int" .int int64,
     holding "String" .text text,
     holding "Char" .char char,
     holding "Boolean" .boolean boolean,
     holding "Tag" .tag text,
     holding "ArrayLength" .length uint64]

/-- Decodes the named parts of a record, given the decoder of terms. -/
def fieldList (d : Decoder Expr) : Decoder (List (String × Expr)) :=
  list (twoFields "Prop" "key" "value" text d)

/-- Decodes a literal, given the decoder of its parts. -/
def literal (d : Decoder Expr) : Decoder Expr :=
  choice "Literal"
    [holding "Int" (fun i => .lit () (.int i)) int64,
     holding "Number" (fun x => .lit () (.number x)) float,
     holding "String" (fun s => .lit () (.text s)) text,
     holding "Char" (fun c => .lit () (.char c)) char,
     holding "Boolean" (fun b => .lit () (.boolean b)) boolean,
     holding "Array" (.array ()) (list d),
     holding "Record" (.record ()) (fieldList d)]

/-- Decodes a primitive operation, given the decoder of its operands. -/
def primitive (d : Decoder Expr) : Decoder Expr :=
  choice "PrimOp"
    [("Op1", .elements 2 do return .unary () (← element unaryOp) (← element d)),
     ("Op2", .elements 3 do
       return .binary () (← element binaryOp) (← element d) (← element d))]

/-- The alternative of an application. -/
def appCase (d : Decoder Expr) (calling : Calling) : Alternative Expr :=
  (Term.appName calling, .elements 2 do
    return .app () calling (← element d) (← element (list d)))

/-- The alternative of a function. -/
def absCase (d : Decoder Expr) (calling : Calling) : Alternative Expr :=
  (Term.absName calling, .elements 2 do
    return .abs () calling (← element (list binder)) (← element d))

/-- The name and the level of a binder, as two elements. -/
def binderElements : Elements Binder := do
  return ⟨← element (optional text), ← element uint32⟩

/-- Decodes a node, given the decoder of its subterms. -/
def node (d : Decoder Expr) : Decoder Expr :=
  choice "Syntax"
    [holding "Var" (.global ()) qualified,
     ("Local", .elements 2 do return .bound () (← binderElements)),
     ("Lit", .value (literal d)),
     appCase d .curried,
     absCase d .curried,
     appCase d .uncurried,
     absCase d .uncurried,
     appCase d .effectful,
     absCase d .effectful,
     ("Accessor", .elements 2 do return .access () (← element d) (← element accessor)),
     ("Update", .elements 2 do return .update () (← element d) (← element (fieldList d))),
     ("CtorSaturated", .elements 3 do
       return .construct () (← element qualified) (← element text)
         (← element (fieldList d))),
     ("CtorDef", .elements 2 do
       return .constructor () (← element text) (← element (list text))),
     ("Let", .elements 4 do return .letIn () (← binderElements) (← element d) (← element d)),
     ("LetRec", .elements 3 do
       return .letRec () (← element uint32) (← element (list (pair text d))) (← element d)),
     ("EffectBind", .elements 4 do
       return .bindEffect () (← binderElements) (← element d) (← element d)),
     holding "EffectPure" (.pureEffect ()) d,
     holding "EffectDefer" (.deferEffect ()) d,
     ("Branch", .elements 2 do
       return .branch () (← element (list (twoFields "Pair" "cond" "body" d d))) (← element d)),
     ("Test", .elements 2 do return .test () (← element d) (← element guarding)),
     ("PrimOp", .value (primitive d)),
     ("PrimUndefined", .unit (.undefined ())),
     holding "Fail" (.fail ()) text]

/-- Decodes terms that are nested at most `n` deep. -/
def exprWithin : Nat → Decoder Expr
  | 0 => fun _ _ => faulty .malformed
  | n + 1 => node (exprWithin n)

/-- Decodes a term. -/
def expr : Decoder Expr := fun room j => exprWithin (room + 1) room j

end TailLoop.Decoder
