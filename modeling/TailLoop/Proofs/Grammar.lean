import TailLoop.Proofs.Tokens

/-!
# The grammar of scripts

Which token lists are which scripts. The productions are those of the language for the part of it
that scripts use: an arrow function binds least, then come the conditional, the operators of two
operands by their looseness, those of one operand, and member access and calls. Operators of two
operands group to the left, the conditional to the right.

Trees are read in one form where a script can be written in two: a negative number is a number and
no operation, and a function body consisting of an expression returns it.

* `Derives`: a token list is a part of a program of some category, with this tree.
* `Reads`: the same for texts.
-/

namespace TailLoop.Script

/-- The words that are no identifiers. -/
def keywords : List String :=
  ["arguments", "await", "break", "case", "catch", "class", "const", "continue", "debugger",
   "default", "delete", "do", "else", "enum", "eval", "export", "extends", "false", "finally",
   "for", "function", "if", "implements", "import", "in", "instanceof", "interface", "let", "new",
   "null", "package", "private", "protected", "public", "return", "static", "super", "switch",
   "this", "throw", "true", "try", "typeof", "undefined", "var", "void", "while", "with", "yield"]

/-- The operator of one operand that is written with the given sign. -/
def unaryOp? : String → Option UnaryOp
  | "!" => some .not
  | "-" => some .negate
  | "~" => some .bitNot
  | _ => none

/-- The operator of two operands that is written with the given sign, and its level: larger ones
bind more loosely. -/
def binaryOp? : String → Option (BinaryOp × Nat)
  | "*" => some (.mul, 1)
  | "/" => some (.div, 1)
  | "%" => some (.mod, 1)
  | "+" => some (.add, 2)
  | "-" => some (.sub, 2)
  | "<" => some (.lt, 3)
  | "<=" => some (.lte, 3)
  | ">" => some (.gt, 3)
  | ">=" => some (.gte, 3)
  | "===" => some (.eq, 4)
  | "!==" => some (.notEq, 4)
  | "&&" => some (.and, 5)
  | "||" => some (.or, 6)
  | _ => none

/-- The size of the least `Int64`; all other whole numbers of this size and more are too large. -/
def leastSize : Nat := 2 ^ 63

/-- An operation of one operand; a number with a sign in front is a negative number. -/
def applied : UnaryOp → Expr → Expr
  | .negate, .int i => if 0 < i then .int (-i) else .unary .negate (.int i)
  | op, e => .unary op e

/-- A kind of part of a program. -/
inductive Category where
  /-- An identifier. -/
  | name
  /-- A name outside of the module, or of a property: any word or text. -/
  | label
  | primary
  /-- Member access and, if they are wanted, calls. -/
  | member (calls : Bool)
  | unary
  /-- Operators of two operands that bind at most this loosely. -/
  | binary (looseness : Nat)
  | conditional
  /-- Any expression. -/
  | assignment
  | field
  /-- One or more, with commas between them. -/
  | series (item : Category)
  /-- Any number, with commas between them. -/
  | commas (item : Category)
  /-- The body of a function. -/
  | body
  | block
  | arms
  | stmt
  /-- Any number, one after the other. -/
  | many (item : Category)
  | importLine
  /-- A published name, and its public name if there is one. -/
  | exportName
  | exportLine
  | module

/-- The trees of a category. -/
abbrev Category.Tree : Category → Type
  | .name | .label => String
  | .primary | .member _ | .unary | .binary _ | .conditional | .assignment => Expr
  | .field => Field
  | .series item | .commas item | .many item => List item.Tree
  | .body | .block => List Stmt
  | .arms => List (Expr × List Stmt)
  | .stmt => Stmt
  | .importLine => Import
  | .exportName => String × Option String
  | .exportLine => ExportList
  | .module => Module

/-- The tokens are a part of a program of the category `c`, with the given tree. -/
inductive Derives : (c : Category) → List Token → c.Tree → Prop
  -- names
  | name {w : String} : w ∉ keywords → Derives .name [.word w] w
  | labelWord {w : String} : Derives .label [.word w] w
  | labelText {s : String} : Derives .label [.text s] s
  -- primary expressions
  | ident {u : List Token} {w : String} : Derives .name u w → Derives .primary u (.ident w)
  | int {n : Nat} : n < leastSize → Derives .primary [.numeral n] (.int (Int64.ofNat n))
  | text {s : String} : Derives .primary [.text s] (.text s)
  | true : Derives .primary [.word "true"] (.boolean true)
  | false : Derives .primary [.word "false"] (.boolean false)
  | undefined : Derives .primary [.word "undefined"] .undefined
  | array {u : List Token} {es : List Expr} : Derives (.commas .assignment) u es →
      Derives .primary (.sign "[" :: u ++ [.sign "]"]) (.array es)
  | object {u : List Token} {fs : List Field} : Derives (.commas .field) u fs →
      Derives .primary (.sign "\x7b" :: u ++ [.sign "\x7d"]) (.object fs)
  | parens {u : List Token} {e : Expr} : Derives .assignment u e →
      Derives .primary (.sign "(" :: u ++ [.sign ")"]) e
  -- member access and calls
  | primary {calls : Bool} {u : List Token} {e : Expr} : Derives .primary u e →
      Derives (.member calls) u e
  | access {calls : Bool} {u : List Token} {e : Expr} {p : String} : Derives (.member calls) u e →
      Derives (.member calls) (u ++ [.sign ".", .word p]) (.access e p)
  | index {calls : Bool} {u v : List Token} {e i : Expr} : Derives (.member calls) u e →
      Derives .assignment v i →
      Derives (.member calls) (u ++ (.sign "[" :: v ++ [.sign "]"])) (.index e i)
  | new {calls : Bool} {u v : List Token} {f : Expr} {es : List Expr} :
      Derives (.member Bool.false) u f → Derives (.commas .assignment) v es →
      Derives (.member calls) (.word "new" :: u ++ (.sign "(" :: v ++ [.sign ")"])) (.new f es)
  | call {u v : List Token} {f : Expr} {es : List Expr} : Derives (.member Bool.true) u f →
      Derives (.commas .assignment) v es →
      Derives (.member Bool.true) (u ++ (.sign "(" :: v ++ [.sign ")"])) (.call f es)
  -- operators
  | member {u : List Token} {e : Expr} : Derives (.member Bool.true) u e → Derives .unary u e
  | unaryOp {s : String} {op : UnaryOp} {u : List Token} {e : Expr} : unaryOp? s = some op →
      Derives .unary u e → Derives .unary (.sign s :: u) (applied op e)
  -- the least number has no positive counterpart
  | least : Derives .unary [.sign "-", .numeral leastSize] (.int Int64.minValue)
  | unary {u : List Token} {e : Expr} : Derives .unary u e → Derives (.binary 0) u e
  | tighter {k : Nat} {u : List Token} {e : Expr} : Derives (.binary k) u e →
      Derives (.binary (k + 1)) u e
  | binaryOp {k : Nat} {s : String} {op : BinaryOp} {u v : List Token} {l r : Expr} :
      binaryOp? s = some (op, k + 1) → Derives (.binary (k + 1)) u l → Derives (.binary k) v r →
      Derives (.binary (k + 1)) (u ++ .sign s :: v) (.binary op l r)
  | binary {u : List Token} {e : Expr} : Derives (.binary 6) u e → Derives .conditional u e
  | choice {u v w : List Token} {t y n : Expr} : Derives (.binary 6) u t →
      Derives .assignment v y → Derives .assignment w n →
      Derives .conditional (u ++ .sign "?" :: (v ++ .sign ":" :: w)) (.conditional t y n)
  -- functions
  | conditional {u : List Token} {e : Expr} : Derives .conditional u e → Derives .assignment u e
  | arrowOne {u v : List Token} {p : String} {b : List Stmt} : Derives .name u p →
      Derives .body v b → Derives .assignment (u ++ .sign "=>" :: v) (.arrow [p] b)
  | arrow {u v : List Token} {ps : List String} {b : List Stmt} : Derives (.commas .name) u ps →
      Derives .body v b →
      Derives .assignment (.sign "(" :: u ++ .sign ")" :: .sign "=>" :: v) (.arrow ps b)
  | concise {u : List Token} {e : Expr} : Derives .assignment u e →
      u.head? ≠ some (.sign "\x7b") → Derives .body u [.ret e]
  | body {u : List Token} {b : List Stmt} : Derives .block u b → Derives .body u b
  | block {u : List Token} {b : List Stmt} : Derives (.many .stmt) u b →
      Derives .block (.sign "\x7b" :: u ++ [.sign "\x7d"]) b
  -- parts of object literals
  | field {u v : List Token} {k : String} {e : Expr} : Derives .label u k →
      Derives .assignment v e → Derives .field (u ++ .sign ":" :: v) (.field k e)
  | spread {u : List Token} {e : Expr} : Derives .assignment u e →
      Derives .field (.sign "..." :: u) (.spread e)
  -- lists
  | one {item : Category} {u : List Token} {a : item.Tree} : Derives item u a →
      Derives (.series item) u [a]
  | more {item : Category} {u v : List Token} {a : item.Tree} {as : List item.Tree} :
      Derives item u a → Derives (.series item) v as →
      Derives (.series item) (u ++ .sign "," :: v) (a :: as)
  | none {item : Category} : Derives (.commas item) [] []
  | some {item : Category} {u : List Token} {as : List item.Tree} :
      Derives (.series item) u as → Derives (.commas item) u as
  | nil {item : Category} : Derives (.many item) [] []
  | cons {item : Category} {u v : List Token} {a : item.Tree} {as : List item.Tree} :
      Derives item u a → Derives (.many item) v as → Derives (.many item) (u ++ v) (a :: as)
  -- statements
  | const {u v : List Token} {x : String} {e : Expr} : Derives .name u x →
      Derives .assignment v e →
      Derives .stmt (.word "const" :: u ++ .sign "=" :: (v ++ [.sign ";"])) (.const x e)
  | declare {u : List Token} {x : String} : Derives .name u x →
      Derives .stmt (.word "let" :: u ++ [.sign ";"]) (.declare x Option.none)
  | declareAs {u v : List Token} {x : String} {e : Expr} : Derives .name u x →
      Derives .assignment v e →
      Derives .stmt (.word "let" :: u ++ .sign "=" :: (v ++ [.sign ";"]))
        (.declare x (Option.some e))
  | assign {u v : List Token} {x : String} {e : Expr} : Derives .name u x →
      Derives .assignment v e →
      Derives .stmt (u ++ .sign "=" :: (v ++ [.sign ";"])) (.assign x e)
  | expr {u : List Token} {e : Expr} : Derives .assignment u e →
      u.head? ≠ some (.sign "\x7b") → Derives .stmt (u ++ [.sign ";"]) (.expr e)
  | chain {u : List Token} {as : List (Expr × List Stmt)} : Derives .arms u as →
      Derives .stmt u (.chain as)
  | loop {u : List Token} {b : List Stmt} : Derives .block u b →
      Derives .stmt (.word "while" :: .sign "(" :: .word "true" :: .sign ")" :: u) (.loop b)
  | again : Derives .stmt [.word "continue", .sign ";"] .again
  | ret {u : List Token} {e : Expr} : Derives .assignment u e →
      Derives .stmt (.word "return" :: u ++ [.sign ";"]) (.ret e)
  | retUndefined : Derives .stmt [.word "return", .sign ";"] .retUndefined
  | throw {u : List Token} {e : Expr} : Derives .assignment u e →
      Derives .stmt (.word "throw" :: u ++ [.sign ";"]) (.throw e)
  | lastArm {u v : List Token} {e : Expr} {b : List Stmt} : Derives .assignment u e →
      Derives .block v b →
      Derives .arms (.word "if" :: .sign "(" :: (u ++ .sign ")" :: v)) [(e, b)]
  | arm {u v w : List Token} {e : Expr} {b : List Stmt} {as : List (Expr × List Stmt)} :
      Derives .assignment u e → Derives .block v b → Derives .arms w as →
      Derives .arms (.word "if" :: .sign "(" :: (u ++ .sign ")" :: (v ++ .word "else" :: w)))
        ((e, b) :: as)
  -- modules
  | importLine {u : List Token} {x path : String} : Derives .name u x →
      Derives .importLine (.word "import" :: .sign "*" :: .word "as" ::
        (u ++ [.word "from", .text path, .sign ";"])) ⟨x, path⟩
  | exportName {u : List Token} {x : String} : Derives .label u x →
      Derives .exportName u (x, Option.none)
  | exportAs {u v : List Token} {x p : String} : Derives .label u x → Derives .label v p →
      Derives .exportName (u ++ .word "as" :: v) (x, Option.some p)
  | exportLine {u : List Token} {names : List (String × Option String)} :
      Derives (.commas .exportName) u names →
      Derives .exportLine (.word "export" :: .sign "\x7b" :: (u ++ [.sign "\x7d", .sign ";"]))
        ⟨names, Option.none⟩
  | exportFrom {u : List Token} {names : List (String × Option String)} {path : String} :
      Derives (.commas .exportName) u names →
      Derives .exportLine (.word "export" :: .sign "\x7b" ::
        (u ++ [.sign "\x7d", .word "from", .text path, .sign ";"])) ⟨names, Option.some path⟩
  | module {u v w : List Token} {is : List Import} {ss : List Stmt} {es : List ExportList} :
      Derives (.many .importLine) u is → Derives (.many .stmt) v ss →
      Derives (.many .exportLine) w es → Derives .module (u ++ (v ++ w)) ⟨is, ss, es⟩

/-- `text` is a part of a program of the category `c`, with the tree `tree`. -/
def Reads [Letters] (c : Category) (text : String) (tree : c.Tree) : Prop :=
  ∃ ts, lex text = some ts ∧ Derives c ts tree

end TailLoop.Script
