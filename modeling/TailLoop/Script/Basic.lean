import TailLoop.Term.Basic

/-!
# Scripts

The part of a scripting language with closures that terms are lowered to: expressions, statements
and modules.
-/

namespace TailLoop.Script

mutual

/-- An expression. -/
inductive Expr where
  | ident (name : String)
  | int (value : Int64)
  | number (value : Float)
  | text (value : String)
  | boolean (value : Bool)
  | undefined
  | array (items : List Expr)
  | object (fields : List Field)
  /-- A property with a fixed name. -/
  | access (object : Expr) (property : String)
  | index (object position : Expr)
  | call (callee : Expr) (args : List Expr)
  | new (callee : Expr) (args : List Expr)
  /-- A function that takes all its parameters at once. -/
  | arrow (params : List String) (body : List Stmt)
  | unary (op : UnaryOp) (operand : Expr)
  | binary (op : BinaryOp) (left right : Expr)
  | conditional (test yes no : Expr)

/-- A part of an object literal. -/
inductive Field where
  | field (key : String) (value : Expr)
  /-- All fields of another object. -/
  | spread (value : Expr)

/-- A statement. -/
inductive Stmt where
  | const (name : String) (value : Expr)
  /-- Declares a variable that can be assigned. -/
  | declare (name : String) (value : Option Expr)
  | assign (name : String) (value : Expr)
  | expr (value : Expr)
  /-- Runs the block of the first condition that holds, and goes on after the chain if none does. -/
  | chain (arms : List (Expr × List Stmt))
  /-- Repeats its body for ever. -/
  | loop (body : List Stmt)
  /-- Starts the next round of the innermost loop. -/
  | again
  | ret (value : Expr)
  /-- Returns an object literal. -/
  | retObject (value : Expr)
  | retUndefined
  | throw (value : Expr)

end

instance : Inhabited Expr := ⟨.undefined⟩

instance : Inhabited Field := ⟨.spread .undefined⟩

instance : Inhabited Stmt := ⟨.again⟩

namespace Expr

/-- Calls a parameterless function at the place where it stands. -/
def immediate (body : List Stmt) : Expr := .call (.arrow [] body) []

/-- A function that takes its parameters one by one; without parameters it is taken as it is. -/
def curried : List String → List Stmt → Expr
  | [], body => .arrow [] body
  | [p], body => .arrow [p] body
  | p :: ps, body => .arrow [p] [.ret (curried ps body)]

end Expr

/-- A module that is imported under an alias. -/
structure Import where
  /-- The name it has here. -/
  name : String
  /-- Where it is found. -/
  path : String
  deriving DecidableEq

/-- Names that are published together. -/
structure ExportList where
  /-- The names here, each with its public name if that differs. -/
  names : List (String × Option String)
  /-- Where they come from, if not from this module. -/
  source : Option String
  deriving DecidableEq

/-- A module. -/
structure Module where
  /-- The imported modules. -/
  imports : List Import
  /-- The declarations, in order. -/
  declarations : List Stmt
  /-- The published names. -/
  exports : List ExportList

end TailLoop.Script
