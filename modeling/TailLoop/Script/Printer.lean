import TailLoop.Decimal.Style
import TailLoop.Layout.Doc
import TailLoop.Script.Basic
import TailLoop.Script.Ident
import TailLoop.Text.Quoted

/-!
# Script texts

How scripts are written. Operands are put in parentheses when they bind less tightly than their
place demands. Lines break only where a block does, so the text does not depend on a line width.
-/

namespace TailLoop.Script

open Layout

/-! ## Operators -/

/-- The sign of an operator. -/
def unarySign : UnaryOp → String
  | .not => "!"
  | .negate => "-"
  | .bitNot => "~"

/-- The sign of an operator. -/
def binarySign : BinaryOp → String
  | .add => "+"
  | .sub => "-"
  | .mul => "*"
  | .div => "/"
  | .mod => "%"
  | .eq => "==="
  | .notEq => "!=="
  | .lt => "<"
  | .lte => "<="
  | .gt => ">"
  | .gte => ">="
  | .and => "&&"
  | .or => "||"

/-- How tightly a conditional binds. -/
def conditionalLevel : Nat := 2

/-- How tightly an operator of one operand binds. -/
def unaryLevel : Nat := 14

/-- How tightly property access and calls bind. -/
def memberLevel : Nat := 18

/-- How tightly an operator of two operands binds. -/
def binaryLevel : BinaryOp → Nat
  | .or => 3
  | .and => 4
  | .eq | .notEq => 8
  | .lt | .lte | .gt | .gte => 9
  | .add | .sub => 11
  | .mul | .div | .mod => 12

/-- How tightly an expression binds; a number with a sign counts as an operation. -/
def Expr.level : Expr → Nat
  | .arrow .. => 1
  | .conditional .. => conditionalLevel
  | .binary op _ _ => binaryLevel op
  | .unary .. => unaryLevel
  | .int i => if i < 0 then unaryLevel else memberLevel
  | .number x => if Decimal.isNegative x then unaryLevel else memberLevel
  | .new .. => 17
  | _ => memberLevel

/-! ## Pieces -/

/-- A word of the language. -/
def keyword (word : String) : Doc := .styled { color := .magenta, bold := true } word

/-- A number or a truth value. -/
def constantDoc (s : String) : Doc := .styled { color := .cyan } s

/-- A quoted text. -/
def textDoc (s : String) : Doc := .styled { color := .green } (Text.quote s)

/-- A name of this module. -/
def identDoc (name : String) : Doc := .str (escapeIdent name)

/-- A name from outside, which is never escaped: quoted unless it is an identifier. -/
def outerName (name : String) : Doc := if isIdentName name then .str name else textDoc name

/-- Documents with commas between them. -/
def commas (ds : List Doc) : Doc := .intersperse (.text ", ") ds

/-- The document of an operand at a place that demands a level. -/
def operandDoc (demanded : Nat) (e : Expr) (d : Doc) : Doc :=
  if e.level < demanded then .parens d else d

/-- Whether an expression is an object literal. -/
def Expr.isObject : Expr → Bool
  | .object _ => true
  | _ => false

/-- An expression where a brace would start a block. -/
def guardedDoc (e : Expr) (d : Doc) : Doc := if e.isObject then .parens d else d

/-- The document of a statement, and of the expression that can stand in place of a function body
consisting of it alone. -/
structure StmtDoc where
  /-- The statement. -/
  full : Doc
  /-- The expression that can stand for it as a whole body. -/
  concise : Option Doc

/-- A word, then an expression and a semicolon. -/
def wordStatement (word : String) (value : Doc) : Doc :=
  keyword word ++ (Doc.space ++ (value ++ .text ";"))

/-- A statement that returns a value. -/
def returnDoc (value : Expr) (d : Doc) : StmtDoc :=
  ⟨wordStatement "return" d, some (guardedDoc value d)⟩

/-- A statement that is no function body of its own. -/
def plainDoc (d : Doc) : StmtDoc := ⟨d, none⟩

/-- Statements, one to a line. -/
def linesDoc (ss : List StmtDoc) : Doc := .intersperse .hardline (ss.map StmtDoc.full)

/-- Statements in braces. -/
def blockDoc : List StmtDoc → Doc
  | [] => .text "\x7b\x7d"
  | ss => .text "\x7b" ++ (.indent 2 (.hardline ++ linesDoc ss) ++ (.hardline ++ .text "\x7d"))

/-- The body of a function. -/
def bodyDoc : List StmtDoc → Doc
  | [⟨_, some d⟩] => d
  | ss => blockDoc ss

/-- The parameters of a function. -/
def paramsDoc : List String → Doc
  | [p] => identDoc p
  | ps => .parens (commas (ps.map identDoc))

/-- An object literal. -/
def objectDoc : List Doc → Doc
  | [] => .text "\x7b\x7d"
  | fields => .enclose "\x7b " " \x7d" (commas fields)

/-- A property behind an object. -/
def propertyDoc (property : String) : Doc :=
  if isIdentName property then .text ("." ++ property) else .brackets (textDoc property)

/-- A declaration, with its value if it has one. -/
def declarationDoc (word name : String) (value : Option Doc) : Doc :=
  let head := keyword word ++ (Doc.space ++ identDoc name)
  match value with
  | some d => head ++ (.text " = " ++ (d ++ .text ";"))
  | none => head ++ .text ";"

/-- A condition with its block. -/
def armDoc (test block : Doc) : Doc :=
  keyword "if" ++ (Doc.space ++ (.parens test ++ (Doc.space ++ block)))

/-! ## Expressions and statements -/

mutual

/-- An expression. -/
def Expr.doc : Expr → Doc
  | .ident name => identDoc name
  | .int i => constantDoc (Decimal.intText i.toInt)
  | .number x => constantDoc (Decimal.literalText "Infinity" x)
  | .text s => textDoc s
  | .boolean b => constantDoc (if b then "true" else "false")
  | .undefined => keyword "undefined"
  | .array items => .brackets (commas (exprDocs items))
  | .object fields => objectDoc (fieldDocs fields)
  | .access object property => operandDoc memberLevel object object.doc ++ propertyDoc property
  | .index object position =>
    operandDoc memberLevel object object.doc ++ .brackets position.doc
  | .call callee args =>
    operandDoc memberLevel callee callee.doc ++ .parens (commas (exprDocs args))
  | .new callee args =>
    keyword "new" ++ (Doc.space ++ (operandDoc memberLevel callee callee.doc ++
      .parens (commas (exprDocs args))))
  | .arrow params body => paramsDoc params ++ (.text " => " ++ bodyDoc (stmtDocs body))
  | .unary op operand => .text (unarySign op) ++ operandDoc memberLevel operand operand.doc
  -- operands that are operations of two operands themselves always get parentheses
  | .binary op left right =>
    operandDoc unaryLevel left left.doc ++
      (.text (" " ++ binarySign op ++ " ") ++ operandDoc unaryLevel right right.doc)
  | .conditional test yes no =>
    operandDoc (conditionalLevel + 1) test test.doc ++ (.text " ? " ++
      (operandDoc conditionalLevel yes yes.doc ++ (.text " : " ++
        operandDoc conditionalLevel no no.doc)))

/-- Expressions, one by one. -/
def exprDocs : List Expr → List Doc
  | [] => []
  | e :: rest => e.doc :: exprDocs rest

/-- A part of an object literal. -/
def Field.doc : Field → Doc
  | .field key value => outerName key ++ (.text ": " ++ value.doc)
  | .spread value => .text "..." ++ operandDoc conditionalLevel value value.doc

/-- Parts of an object literal, one by one. -/
def fieldDocs : List Field → List Doc
  | [] => []
  | f :: rest => f.doc :: fieldDocs rest

/-- A statement. -/
def Stmt.doc : Stmt → StmtDoc
  | .const name value => plainDoc (declarationDoc "const" name (some value.doc))
  | .declare name (some value) => plainDoc (declarationDoc "let" name (some value.doc))
  | .declare name none => plainDoc (declarationDoc "let" name none)
  | .assign name value => plainDoc (identDoc name ++ (.text " = " ++ (value.doc ++ .text ";")))
  | .expr value => plainDoc (guardedDoc value value.doc ++ .text ";")
  | .chain arms =>
    plainDoc (.intersperse (Doc.space ++ (keyword "else" ++ Doc.space)) (armDocs arms))
  | .loop body =>
    plainDoc (keyword "while" ++ (Doc.space ++ (.parens (keyword "true") ++
      (Doc.space ++ blockDoc (stmtDocs body)))))
  | .again => plainDoc (keyword "continue" ++ .text ";")
  | .ret value => returnDoc value value.doc
  | .retObject value => returnDoc value value.doc
  | .retUndefined => plainDoc (keyword "return" ++ .text ";")
  | .throw value => plainDoc (wordStatement "throw" value.doc)

/-- Statements, one by one. -/
def stmtDocs : List Stmt → List StmtDoc
  | [] => []
  | s :: rest => s.doc :: stmtDocs rest

/-- The arms of a chain, one by one. -/
def armDocs : List (Expr × List Stmt) → List Doc
  | [] => []
  | (test, body) :: rest => armDoc test.doc (blockDoc (stmtDocs body)) :: armDocs rest

end

/-- The documents of expressions are theirs, one by one. -/
theorem exprDocs_eq_map (es : List Expr) : exprDocs es = es.map Expr.doc := by
  induction es with
  | nil => rfl
  | cons e rest ih => rw [exprDocs, ih, List.map_cons]

/-- The documents of parts of an object literal are theirs, one by one. -/
theorem fieldDocs_eq_map (fs : List Field) : fieldDocs fs = fs.map Field.doc := by
  induction fs with
  | nil => rfl
  | cons f rest ih => rw [fieldDocs, ih, List.map_cons]

/-- The documents of statements are theirs, one by one. -/
theorem stmtDocs_eq_map (ss : List Stmt) : stmtDocs ss = ss.map Stmt.doc := by
  induction ss with
  | nil => rfl
  | cons s rest ih => rw [stmtDocs, ih, List.map_cons]

/-! ## Modules -/

/-- The end of a line that names where something comes from. -/
def fromDoc (path : String) : Doc :=
  Doc.space ++ (keyword "from" ++ (Doc.space ++ (textDoc path ++ .text ";")))

/-- An import. -/
def Import.doc (i : Import) : Doc :=
  keyword "import" ++ (.text " * as " ++ (identDoc i.name ++ fromDoc i.path))

/-- The public name to be written behind a name of this module, if one must be. -/
def publicName (source : Option String) (name : String) (public? : Option String) : Option String :=
  match public?, source with
  | some p, _ => some p
  | none, some _ => none
  -- a name that is escaped here keeps its own form outside
  | none, none => if escapeIdent name ≠ name then some name else none

/-- One published name. Those of another module are its public names and never escaped. -/
def exportNameDoc (source : Option String) (name : String) (public? : Option String) : Doc :=
  let inner := if source.isSome then outerName name else identDoc name
  match publicName source name public? with
  | some p => inner ++ (Doc.space ++ (keyword "as" ++ (Doc.space ++ outerName p)))
  | none => inner

/-- A list of published names. -/
def ExportList.doc (e : ExportList) : Doc :=
  let names := e.names.map fun n => exportNameDoc e.source n.1 n.2
  let head := keyword "export" ++ (Doc.space ++ .braces (commas names))
  match e.source with
  | some path => head ++ fromDoc path
  | none => head ++ .text ";"

/-- Statements, one to a line. -/
def blockLines (body : List Stmt) : Doc := linesDoc (stmtDocs body)

/-- A module: imports, declarations, exports, each on a line of its own. -/
def Module.doc (m : Module) : Doc :=
  .intersperse .hardline
    (m.imports.map Import.doc ++ (stmtDocs m.declarations).map StmtDoc.full
      ++ m.exports.map ExportList.doc)

end TailLoop.Script
