import TailLoop.Proofs.Grammar

/-!
# The form in which a script is read

A script and what is read from its text differ where two trees have one text: names are read as
they are written, a returned object literal as any returned value, a sign in front of a number as a
part of it, a property that is no identifier as an index. A name that is published under a name
that it does not have here is read with its public name.

Properties, keys and public names are written as words wherever the printer takes them for
identifiers (`isIdentName`). They can be read where they are identifiers of the language (`isName`);
the printer takes `x²` for one, and the language does not.

* `normal`: what a script is read as.
* `isLegible`: whether a script can be read at all.
-/

namespace TailLoop.Script

/-! ## What is read -/

mutual

/-- What `e` is read as: names are the ones that `escapeIdent` writes. -/
def Expr.normal : Expr → Expr
  | .ident name => .ident (escapeIdent name)
  | .int i => .int i
  | .number x => .number x
  | .text s => .text s
  | .boolean b => .boolean b
  | .undefined => .undefined
  | .array items => .array (exprsNormal items)
  | .object fields => .object (fieldsNormal fields)
  | .access object property =>
    if isIdentName property then .access object.normal property
    else .index object.normal (.text property)
  | .index object position => .index object.normal position.normal
  | .call callee args => .call callee.normal (exprsNormal args)
  | .new callee args => .new callee.normal (exprsNormal args)
  | .arrow params body => .arrow (params.map escapeIdent) (stmtsNormal body)
  | .unary op operand => applied op operand.normal
  | .binary op left right => .binary op left.normal right.normal
  | .conditional test yes no => .conditional test.normal yes.normal no.normal

/-- `Expr.normal` of expressions. -/
def exprsNormal : List Expr → List Expr
  | [] => []
  | e :: rest => e.normal :: exprsNormal rest

/-- What a `Field` is read as. -/
def Field.normal : Field → Field
  | .field key value => .field key value.normal
  | .spread value => .spread value.normal

/-- `Field.normal` of the parts of an object literal. -/
def fieldsNormal : List Field → List Field
  | [] => []
  | f :: rest => f.normal :: fieldsNormal rest

/-- What `s` is read as: `retObject` is a `ret`, and names are the ones that `escapeIdent`
writes. -/
def Stmt.normal : Stmt → Stmt
  | .const name value => .const (escapeIdent name) value.normal
  | .declare name (some value) => .declare (escapeIdent name) (some value.normal)
  | .declare name none => .declare (escapeIdent name) none
  | .assign name value => .assign (escapeIdent name) value.normal
  | .expr value => .expr value.normal
  | .chain arms => .chain (armsNormal arms)
  | .loop body => .loop (stmtsNormal body)
  | .again => .again
  | .ret value | .retObject value => .ret value.normal
  | .retUndefined => .retUndefined
  | .throw value => .throw value.normal

/-- `Stmt.normal` of statements. -/
def stmtsNormal : List Stmt → List Stmt
  | [] => []
  | s :: rest => s.normal :: stmtsNormal rest

/-- What the arms of a chain are read as. -/
def armsNormal : List (Expr × List Stmt) → List (Expr × List Stmt)
  | [] => []
  | (test, body) :: rest => (test.normal, stmtsNormal body) :: armsNormal rest

end

/-- What the import `i` is read as. -/
def Import.normal (i : Import) : Import := ⟨escapeIdent i.name, i.path⟩

/-- What the list `e` of published names is read as. Names of another module are no names here, so
`escapeIdent` leaves them. -/
def ExportList.normal (e : ExportList) : ExportList where
  names := e.names.map fun n =>
    (if e.source.isSome then n.1 else escapeIdent n.1, publicName e.source n.1 n.2)
  source := e.source

/-- What the module `m` is read as. -/
def Module.normal (m : Module) : Module where
  imports := m.imports.map Import.normal
  declarations := stmtsNormal m.declarations
  exports := m.exports.map ExportList.normal

/-! ## What can be read -/

section Names

variable [Letters]

/-- Whether `name` is an identifier of the language as it is written. -/
def isNameHere (name : String) : Bool := isName (escapeIdent name)

/-- Whether `name`, which is never escaped, is an identifier of the language if it is written as
one. -/
def isNameOutside (name : String) : Bool := !isIdentName name || isName name

end Names

/-- Whether the text of `e` starts with an object literal: one that stands first and is not in
parentheses. -/
def Expr.startsWithObject : Expr → Bool
  | .object _ => true
  | .access e _ | .index e _ | .call e _ => memberLevel ≤ e.level && e.startsWithObject
  | .binary _ left _ => unaryLevel ≤ left.level && left.startsWithObject
  | .conditional test _ _ => conditionalLevel < test.level && test.startsWithObject
  | _ => false

/-- Whether `e` can stand where a brace would start a block: an object literal gets parentheses
there if it is the whole of `e` only. -/
def Expr.isGuarded (e : Expr) : Bool := e.isObject || !e.startsWithObject

/-- Whether a function body that is written as an expression `isGuarded`. -/
def isGuardedBody : List Stmt → Bool
  | [.ret value] | [.retObject value] => value.isGuarded
  | _ => true

/-- Whether the expression is an `int`. -/
def Expr.isInt : Expr → Bool
  | .int _ => true
  | _ => false

/-- Whether the expression is an `ident`. -/
def Expr.isIdent : Expr → Bool
  | .ident _ => true
  | _ => false

mutual

/-- Whether an expression can be read: all names are identifiers as they are written, and so are the
properties and keys that are written as words; there are no numbers with a fraction, a name is
behind every `new`, no property stands directly behind a whole number, and no function body starts
with an object literal by mistake. -/
def Expr.isLegible [Letters] : Expr → Bool
  | .ident name => isNameHere name
  | .number _ => false
  | .int _ | .text _ | .boolean _ | .undefined => true
  | .array items => exprsLegible items
  | .object fields => fieldsLegible fields
  | .access object property => object.isLegible && !object.isInt && isNameOutside property
  | .index object position => object.isLegible && position.isLegible
  | .call callee args => callee.isLegible && exprsLegible args
  | .new callee args => callee.isLegible && callee.isIdent && exprsLegible args
  | .arrow params body => params.all isNameHere && stmtsLegible body && isGuardedBody body
  | .unary _ operand => operand.isLegible
  | .binary _ left right => left.isLegible && right.isLegible
  | .conditional test yes no => test.isLegible && yes.isLegible && no.isLegible

/-- `Expr.isLegible` for all expressions. -/
def exprsLegible [Letters] : List Expr → Bool
  | [] => true
  | e :: rest => e.isLegible && exprsLegible rest

/-- Whether a `Field` can be read: its key is an identifier of the language if it is written as
one. -/
def Field.isLegible [Letters] : Field → Bool
  | .field key value => isNameOutside key && value.isLegible
  | .spread value => value.isLegible

/-- `Field.isLegible` for all parts of an object literal. -/
def fieldsLegible [Letters] : List Field → Bool
  | [] => true
  | f :: rest => f.isLegible && fieldsLegible rest

/-- Whether a statement can be read: the same, and every chain has an arm. -/
def Stmt.isLegible [Letters] : Stmt → Bool
  | .const name value | .declare name (some value) | .assign name value =>
    isNameHere name && value.isLegible
  | .declare name none => isNameHere name
  | .expr value => value.isLegible && value.isGuarded
  | .chain arms => !arms.isEmpty && armsLegible arms
  | .loop body => stmtsLegible body
  | .again | .retUndefined => true
  | .ret value | .retObject value | .throw value => value.isLegible

/-- `Stmt.isLegible` for all statements. -/
def stmtsLegible [Letters] : List Stmt → Bool
  | [] => true
  | s :: rest => s.isLegible && stmtsLegible rest

/-- Whether tests and bodies of all arms can be read. -/
def armsLegible [Letters] : List (Expr × List Stmt) → Bool
  | [] => true
  | (test, body) :: rest => test.isLegible && stmtsLegible body && armsLegible rest

end

section Modules

variable [Letters]

/-- Whether the export of `name` from `source` can be read: the name is an identifier of the
language as it is written, and so is the name it is published under. -/
def isExportLegible (source : Option String) (name : String) (public? : Option String) : Bool :=
  (if source.isSome then isNameOutside name else isNameHere name) &&
    (publicName source name public?).all isNameOutside

/-- Whether the names and the source of `e` can be read. -/
def ExportList.isLegible (e : ExportList) : Bool :=
  e.names.all fun n => isExportLegible e.source n.1 n.2

/-- Whether the imports, declarations and published names of `m` can be read. -/
def Module.isLegible (m : Module) : Bool :=
  (m.imports.all fun i => isNameHere i.name) && stmtsLegible m.declarations &&
    m.exports.all ExportList.isLegible

end Modules

end TailLoop.Script
