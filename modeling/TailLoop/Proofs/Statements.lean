import TailLoop.Proofs.Trails

/-!
# Statements of scripts

All statements of a script in the order in which they are written, each before the statements inside
it. Three kinds of them leave a mark: those that throw, loops, and the starts of the next round of a
loop.

* `Script.statementsIn`: the statements of a block and of everything in it.
* `Script.marksIn`: the marks of a block, in order.
* `Script.filterMap_statementsIn`: they are its trail.
-/

namespace TailLoop.Script

mutual

/-- All statements in `e`, outer ones first. -/
def Expr.statements : Expr → List Stmt
  | .ident _ | .int _ | .number _ | .text _ | .boolean _ | .undefined => []
  | .array items => exprsStatements items
  | .object fields => fieldsStatements fields
  | .access object _ => object.statements
  | .index object position => object.statements ++ position.statements
  | .call callee args | .new callee args => callee.statements ++ exprsStatements args
  | .arrow _ body => statementsIn body
  | .unary _ operand => operand.statements
  | .binary _ left right => left.statements ++ right.statements
  | .conditional test yes no => test.statements ++ (yes.statements ++ no.statements)

/-- `Expr.statements` of expressions, in order. -/
def exprsStatements : List Expr → List Stmt
  | [] => []
  | e :: rest => e.statements ++ exprsStatements rest

/-- `Expr.statements` of the value of a `Field`. -/
def Field.statements : Field → List Stmt
  | .field _ value | .spread value => value.statements

/-- `Field.statements` of the parts of an object literal, in order. -/
def fieldsStatements : List Field → List Stmt
  | [] => []
  | f :: rest => f.statements ++ fieldsStatements rest

/-- `s` and the statements in it, outer ones first. -/
def Stmt.statements : Stmt → List Stmt
  | s@(.const _ value) | s@(.assign _ value) | s@(.expr value) | s@(.ret value)
  | s@(.retObject value) | s@(.throw value) | s@(.declare _ (some value)) => s :: value.statements
  | s@(.declare _ none) | s@.again | s@.retUndefined => [s]
  | s@(.chain arms) => s :: armsStatements arms
  | s@(.loop body) => s :: statementsIn body

/-- `Stmt.statements` of the statements of `block`, in order. -/
def statementsIn : List Stmt → List Stmt
  | [] => []
  | s :: rest => s.statements ++ statementsIn rest

/-- The statements in the arms of a chain: those of the condition, then those of the block. -/
def armsStatements : List (Expr × List Stmt) → List Stmt
  | [] => []
  | (cond, block) :: rest => cond.statements ++ (statementsIn block ++ armsStatements rest)

end

/-- The expression of a `throw`. -/
def Stmt.thrown? : Stmt → Option Expr
  | .throw value => some value
  | _ => none

/-- Whether the statement is a `loop`. -/
def Stmt.isLoop : Stmt → Bool
  | .loop _ => true
  | _ => false

/-- Whether the statement is `again`, which starts the next round of a loop. -/
def Stmt.isAgain : Stmt → Bool
  | .again => true
  | _ => false

/-! ## Marks -/

/-- What a statement contributes to the order of events in a script. -/
inductive Mark where
  /-- A value is thrown. -/
  | thrown (value : Expr)
  /-- There is a loop. -/
  | loop
  /-- The next round of a loop is started. -/
  | again

/-- The expression of the mark of a `throw`. -/
def Mark.thrown? : Mark → Option Expr
  | .thrown value => some value
  | _ => none

/-- Whether the mark is that of a `loop`. -/
def Mark.isLoop : Mark → Bool
  | .loop => true
  | _ => false

/-- Whether the mark is that of `again`. -/
def Mark.isAgain : Mark → Bool
  | .again => true
  | _ => false

/-- The mark of a statement. Where there are `loops`, the starts of their rounds are taken as parts
of them and have no mark. -/
def Stmt.mark? (loops : Bool) : Stmt → Option Mark
  | .throw value => some (.thrown value)
  | .loop _ => some .loop
  | .again => if loops then none else some .again
  | _ => none

variable (l : Bool)

/-- The `mark?` of all statements in `block`. -/
def marksIn (block : List Stmt) : List Mark := (statementsIn block).filterMap (Stmt.mark? l)

/-- `mark?` as a `Marking`, so that a `trail` has the marks of statements. -/
def marking : Marking Mark where
  thrown value := some (.thrown value)
  loop := some .loop
  again := if l then none else some .again

/-- The marks of `s :: rest` are the one of `s`, if there is one, and those of `rest`. -/
theorem filterMap_cons_mark? (s : Stmt) (rest : List Stmt) :
    (s :: rest).filterMap (Stmt.mark? l) = (s.mark? l).toList ++ rest.filterMap (Stmt.mark? l) := by
  rw [List.filterMap_cons]
  cases s.mark? l <;> rfl

mutual

/-- The marks of `e.statements` are the `trail` of `e`. -/
theorem Expr.filterMap_statements : (e : Expr) →
    e.statements.filterMap (Stmt.mark? l) = e.trail (marking l)
  | .ident _ | .int _ | .number _ | .text _ | .boolean _ | .undefined => rfl
  | .array items => filterMap_exprsStatements items
  | .object fields => filterMap_fieldsStatements fields
  | .access e _ | .unary _ e => e.filterMap_statements
  | .index e e' | .binary _ e e' => by
    simp [Expr.statements, e.filterMap_statements, e'.filterMap_statements]
  | .call callee args | .new callee args => by
    rw [Expr.statements, List.filterMap_append, callee.filterMap_statements,
      filterMap_exprsStatements args, Expr.trail]
  | .arrow _ body => filterMap_statementsIn body
  | .conditional test yes no => by
    simp [Expr.statements, test.filterMap_statements, yes.filterMap_statements,
      no.filterMap_statements]

theorem filterMap_exprsStatements : (es : List Expr) →
    (exprsStatements es).filterMap (Stmt.mark? l) = exprsTrail (marking l) es
  | [] => rfl
  | e :: rest => by
    rw [exprsStatements, List.filterMap_append, e.filterMap_statements,
      filterMap_exprsStatements rest, exprsTrail]

theorem Field.filterMap_statements : (f : Field) →
    f.statements.filterMap (Stmt.mark? l) = f.trail (marking l)
  | .field _ value | .spread value => value.filterMap_statements

theorem filterMap_fieldsStatements : (fs : List Field) →
    (fieldsStatements fs).filterMap (Stmt.mark? l) = fieldsTrail (marking l) fs
  | [] => rfl
  | f :: rest => by
    rw [fieldsStatements, List.filterMap_append, f.filterMap_statements,
      filterMap_fieldsStatements rest, fieldsTrail]

/-- The marks of `s.statements` are the `trail` of `s`. -/
theorem Stmt.filterMap_statements : (s : Stmt) →
    s.statements.filterMap (Stmt.mark? l) = s.trail (marking l)
  | .const _ value | .declare _ (some value) | .assign _ value | .expr value | .ret value
  | .retObject value => value.filterMap_statements
  | .throw value => by
    rw [Stmt.statements, filterMap_cons_mark?, value.filterMap_statements]
    rfl
  | .declare _ none | .retUndefined => rfl
  | .again => by
    rw [Stmt.statements, filterMap_cons_mark?]
    exact List.append_nil _
  | .chain arms => filterMap_armsStatements arms
  | .loop body => by
    rw [Stmt.statements, filterMap_cons_mark?, filterMap_statementsIn body]
    rfl

/-- The marks of `statementsIn block` are its `trailIn`. -/
theorem filterMap_statementsIn : (block : List Stmt) →
    (statementsIn block).filterMap (Stmt.mark? l) = trailIn (marking l) block
  | [] => rfl
  | s :: rest => by
    rw [statementsIn, List.filterMap_append, s.filterMap_statements, filterMap_statementsIn rest,
      trailIn]

theorem filterMap_armsStatements : (arms : List (Expr × List Stmt)) →
    (armsStatements arms).filterMap (Stmt.mark? l) = armsTrail (marking l) arms
  | [] => rfl
  | (cond, block) :: rest => by
    rw [armsStatements, List.filterMap_append, List.filterMap_append, cond.filterMap_statements,
      filterMap_statementsIn block, filterMap_armsStatements rest, armsTrail]

end

/-! ## What the marks say -/

/-- What `block` throws, computed from `marksIn`. -/
theorem filterMap_thrown?_statementsIn (block : List Stmt) :
    (statementsIn block).filterMap Stmt.thrown? = (marksIn l block).filterMap Mark.thrown? := by
  rw [marksIn, List.filterMap_filterMap]
  congr 1
  funext s
  cases s <;> cases l <;> rfl

/-- The number of loops in `block`, computed from `marksIn`. -/
theorem countP_isLoop_statementsIn (block : List Stmt) :
    (statementsIn block).countP Stmt.isLoop = (marksIn l block).countP Mark.isLoop := by
  rw [marksIn, List.countP_filterMap]
  refine List.countP_congr fun s _ => ?_
  cases s <;> cases l <;> simp [Stmt.isLoop, Stmt.mark?, Mark.isLoop]

/-- The number of `again` in `block`, computed from the marks without those of loops. -/
theorem countP_isAgain_statementsIn (block : List Stmt) :
    (statementsIn block).countP Stmt.isAgain = (marksIn false block).countP Mark.isAgain := by
  rw [marksIn, List.countP_filterMap]
  refine List.countP_congr fun s _ => ?_
  cases s <;> simp [Stmt.isAgain, Stmt.mark?, Mark.isAgain]

end TailLoop.Script
