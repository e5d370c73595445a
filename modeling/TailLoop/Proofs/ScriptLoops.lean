import Mathlib
import TailLoop.Script.Basic

/-!
# Loops of scripts

The loops that are written in a script, outermost first and in order, and the jumps that belong to
the body of a loop: those on its own level, not those inside functions.

* `Script.loopsIn`: the bodies of all loops in a block.
* `Script.jumpsIn`: the number of jumps that start the next round of the loop around a block.
-/

namespace TailLoop.Script

mutual

/-- The bodies of the loops in `e`, outer ones first. -/
def Expr.loops : Expr → List (List Stmt)
  | .ident _ | .int _ | .number _ | .text _ | .boolean _ | .undefined => []
  | .array items => exprsLoops items
  | .object fields => fieldsLoops fields
  | .access object _ => object.loops
  | .index object position => object.loops ++ position.loops
  | .call callee args | .new callee args => callee.loops ++ exprsLoops args
  | .arrow _ body => loopsIn body
  | .unary _ operand => operand.loops
  | .binary _ left right => left.loops ++ right.loops
  | .conditional test yes no => test.loops ++ (yes.loops ++ no.loops)

/-- `Expr.loops` of expressions, in order. -/
def exprsLoops : List Expr → List (List Stmt)
  | [] => []
  | e :: rest => e.loops ++ exprsLoops rest

/-- `Expr.loops` of the value of a `Field`. -/
def Field.loops : Field → List (List Stmt)
  | .field _ value | .spread value => value.loops

/-- `Field.loops` of the parts of an object literal, in order. -/
def fieldsLoops : List Field → List (List Stmt)
  | [] => []
  | f :: rest => f.loops ++ fieldsLoops rest

/-- The bodies of the loops in `s`, outer ones first. -/
def Stmt.loops : Stmt → List (List Stmt)
  | .const _ value | .assign _ value | .expr value | .ret value | .retObject value
  | .throw value => value.loops
  | .declare _ (some value) => value.loops
  | .declare _ none | .again | .retUndefined => []
  | .chain arms => armsLoops arms
  | .loop body => body :: loopsIn body

/-- `Stmt.loops` of the statements of `block`, in order. -/
def loopsIn : List Stmt → List (List Stmt)
  | [] => []
  | s :: rest => s.loops ++ loopsIn rest

/-- The bodies of the loops in the arms of a chain: those of the condition, then those of the
block. -/
def armsLoops : List (Expr × List Stmt) → List (List Stmt)
  | [] => []
  | (cond, block) :: rest => cond.loops ++ (loopsIn block ++ armsLoops rest)

end

mutual

/-- The number of `again` in `s` that belong to the loop around it. -/
def Stmt.jumps : Stmt → Nat
  | .again => 1
  | .chain arms => armsJumps arms
  | _ => 0

/-- The number of `again` in `block` that belong to the loop around it. -/
def jumpsIn : List Stmt → Nat
  | [] => 0
  | s :: rest => s.jumps + jumpsIn rest

/-- The number of `again` in the arms of a chain that belong to the loop around it. -/
def armsJumps : List (Expr × List Stmt) → Nat
  | [] => 0
  | (_, block) :: rest => jumpsIn block + armsJumps rest

end

/-- `jumpsIn` of each of `loopsIn block`. -/
def jumpCounts (block : List Stmt) : List Nat := (loopsIn block).map jumpsIn

/-- `jumpsIn` of each of `e.loops`. -/
def Expr.jumpCounts (e : Expr) : List Nat := e.loops.map jumpsIn

/-- `jumpsIn` of each of `f.loops`. -/
def Field.jumpCounts (f : Field) : List Nat := f.loops.map jumpsIn

/-- `jumpsIn` of each of `s.loops`. -/
def Stmt.jumpCounts (s : Stmt) : List Nat := s.loops.map jumpsIn

/-! ## Loops of parts -/

@[simp] theorem exprsLoops_eq (es : List Expr) : exprsLoops es = es.flatMap Expr.loops := by
  induction es with
  | nil => rfl
  | cons e rest ih => rw [exprsLoops, ih, List.flatMap_cons]

@[simp] theorem fieldsLoops_eq (fs : List Field) : fieldsLoops fs = fs.flatMap Field.loops := by
  induction fs with
  | nil => rfl
  | cons f rest ih => rw [fieldsLoops, ih, List.flatMap_cons]

@[simp] theorem loopsIn_eq (block : List Stmt) : loopsIn block = block.flatMap Stmt.loops := by
  induction block with
  | nil => rfl
  | cons s rest ih => rw [loopsIn, ih, List.flatMap_cons]

@[simp] theorem jumpsIn_eq (block : List Stmt) : jumpsIn block = (block.map Stmt.jumps).sum := by
  induction block with
  | nil => rfl
  | cons s rest ih => rw [jumpsIn, ih, List.map_cons, List.sum_cons]

/-- `jumpCounts` of a block as a `flatMap` over its statements. -/
@[simp] theorem jumpCounts_eq (block : List Stmt) :
    jumpCounts block = block.flatMap Stmt.jumpCounts := by
  rw [jumpCounts, loopsIn_eq, List.map_flatMap]
  rfl

namespace Expr

@[simp] theorem jumpCounts_ident (x : String) : (ident x).jumpCounts = [] := rfl
@[simp] theorem jumpCounts_int (i : Int64) : (int i).jumpCounts = [] := rfl
@[simp] theorem jumpCounts_number (x : Float) : (number x).jumpCounts = [] := rfl
@[simp] theorem jumpCounts_text (s : String) : (text s).jumpCounts = [] := rfl
@[simp] theorem jumpCounts_boolean (b : Bool) : (boolean b).jumpCounts = [] := rfl
@[simp] theorem jumpCounts_undefined : undefined.jumpCounts = [] := rfl

@[simp] theorem jumpCounts_array (es : List Expr) :
    (array es).jumpCounts = es.flatMap jumpCounts := by
  show (exprsLoops es).map jumpsIn = _
  rw [exprsLoops_eq, List.map_flatMap]
  rfl

@[simp] theorem jumpCounts_object (fs : List Field) :
    (object fs).jumpCounts = fs.flatMap Field.jumpCounts := by
  show (fieldsLoops fs).map jumpsIn = _
  rw [fieldsLoops_eq, List.map_flatMap]
  rfl

@[simp] theorem jumpCounts_access (e : Expr) (x : String) :
    (access e x).jumpCounts = e.jumpCounts := rfl

@[simp] theorem jumpCounts_index (e i : Expr) :
    (index e i).jumpCounts = e.jumpCounts ++ i.jumpCounts := List.map_append ..

@[simp] theorem jumpCounts_call (f : Expr) (es : List Expr) :
    (call f es).jumpCounts = f.jumpCounts ++ es.flatMap jumpCounts := by
  show (f.loops ++ exprsLoops es).map jumpsIn = _
  rw [exprsLoops_eq, List.map_append, List.map_flatMap]
  rfl

@[simp] theorem jumpCounts_new (f : Expr) (es : List Expr) :
    (new f es).jumpCounts = f.jumpCounts ++ es.flatMap jumpCounts := by
  show (f.loops ++ exprsLoops es).map jumpsIn = _
  rw [exprsLoops_eq, List.map_append, List.map_flatMap]
  rfl

@[simp] theorem jumpCounts_arrow (params : List String) (body : List Stmt) :
    (arrow params body).jumpCounts = Script.jumpCounts body := rfl

@[simp] theorem jumpCounts_unary (op : UnaryOp) (e : Expr) :
    (unary op e).jumpCounts = e.jumpCounts := rfl

@[simp] theorem jumpCounts_binary (op : BinaryOp) (e e' : Expr) :
    (binary op e e').jumpCounts = e.jumpCounts ++ e'.jumpCounts := List.map_append ..

@[simp] theorem jumpCounts_conditional (test yes no : Expr) :
    (conditional test yes no).jumpCounts =
      test.jumpCounts ++ (yes.jumpCounts ++ no.jumpCounts) := by
  show (test.loops ++ (yes.loops ++ no.loops)).map jumpsIn = _
  rw [List.map_append, List.map_append]
  rfl

@[simp] theorem jumpCounts_immediate (body : List Stmt) :
    (immediate body).jumpCounts = Script.jumpCounts body := by
  simp [immediate]

/-- `curried params body` has the loops of `body`. -/
@[simp] theorem jumpCounts_curried (params : List String) (body : List Stmt) :
    (curried params body).jumpCounts = Script.jumpCounts body := by
  induction params with
  | nil => rfl
  | cons p rest ih =>
    cases rest with
    | nil => rfl
    | cons q rest =>
      show ((curried (q :: rest) body).loops ++ []).map jumpsIn = _
      rw [List.append_nil]
      exact ih

end Expr

@[simp] theorem Field.jumpCounts_field (key : String) (e : Expr) :
    (field key e).jumpCounts = e.jumpCounts := rfl

@[simp] theorem Field.jumpCounts_spread (e : Expr) : (spread e).jumpCounts = e.jumpCounts := rfl

namespace Stmt

@[simp] theorem jumpCounts_const (x : String) (e : Expr) : (const x e).jumpCounts = e.jumpCounts :=
  rfl

@[simp] theorem jumpCounts_declare (x : String) : (declare x none).jumpCounts = [] := rfl

@[simp] theorem jumpCounts_declare_some (x : String) (e : Expr) :
    (declare x (some e)).jumpCounts = e.jumpCounts := rfl

@[simp] theorem jumpCounts_assign (x : String) (e : Expr) :
    (assign x e).jumpCounts = e.jumpCounts := rfl

@[simp] theorem jumpCounts_expr (e : Expr) : (expr e).jumpCounts = e.jumpCounts := rfl

@[simp] theorem jumpCounts_again : again.jumpCounts = [] := rfl

@[simp] theorem jumpCounts_ret (e : Expr) : (ret e).jumpCounts = e.jumpCounts := rfl

@[simp] theorem jumpCounts_retObject (e : Expr) : (retObject e).jumpCounts = e.jumpCounts := rfl

@[simp] theorem jumpCounts_retUndefined : retUndefined.jumpCounts = [] := rfl

@[simp] theorem jumpCounts_throw (e : Expr) : (throw e).jumpCounts = e.jumpCounts := rfl

@[simp] theorem jumpCounts_loop (body : List Stmt) :
    (loop body).jumpCounts = jumpsIn body :: Script.jumpCounts body := rfl

@[simp] theorem jumpCounts_chain (arms : List (Expr × List Stmt)) :
    (chain arms).jumpCounts =
      arms.flatMap fun arm => arm.1.jumpCounts ++ Script.jumpCounts arm.2 := by
  rw [jumpCounts, loops]
  induction arms with
  | nil => rfl
  | cons arm rest ih =>
    rw [armsLoops, List.map_append, List.map_append, ih, List.flatMap_cons, List.append_assoc]
    rfl

@[simp] theorem jumps_const (x : String) (e : Expr) : (const x e).jumps = 0 := rfl
@[simp] theorem jumps_declare (x : String) (e : Option Expr) : (declare x e).jumps = 0 := rfl
@[simp] theorem jumps_assign (x : String) (e : Expr) : (assign x e).jumps = 0 := rfl
@[simp] theorem jumps_expr (e : Expr) : (expr e).jumps = 0 := rfl
@[simp] theorem jumps_again : again.jumps = 1 := rfl
@[simp] theorem jumps_ret (e : Expr) : (ret e).jumps = 0 := rfl
@[simp] theorem jumps_retObject (e : Expr) : (retObject e).jumps = 0 := rfl
@[simp] theorem jumps_retUndefined : retUndefined.jumps = 0 := rfl
@[simp] theorem jumps_throw (e : Expr) : (throw e).jumps = 0 := rfl
@[simp] theorem jumps_loop (body : List Stmt) : (loop body).jumps = 0 := rfl

@[simp] theorem jumps_chain (arms : List (Expr × List Stmt)) :
    (chain arms).jumps = (arms.map fun arm => jumpsIn arm.2).sum := by
  rw [jumps]
  induction arms with
  | nil => rfl
  | cons arm rest ih => rw [armsJumps, ih, List.map_cons, List.sum_cons]

end Stmt

end TailLoop.Script
