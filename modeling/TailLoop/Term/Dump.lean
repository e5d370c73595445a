import TailLoop.Decimal.Style
import TailLoop.Layout.Doc
import TailLoop.Term.Encode
import TailLoop.Text.Quoted

/-!
# Dumps of terms

A term is shown as a nested list of words. The note of a node may put something around what is
shown for the node.
-/

namespace TailLoop

open Layout

/-- A guard as a dump shows it. -/
def Guard.dump : Guard → String
  | .number x => "Number(" ++ Decimal.literalText "inf" x ++ ")"
  | .int i => "Int(" ++ Decimal.intText i.toInt ++ ")"
  | .text s => "String(" ++ Text.showText s ++ ")"
  | .char c => "Char(" ++ Text.showChar c ++ ")"
  | .boolean b => "Boolean(" ++ (if b then "true" else "false") ++ ")"
  | .tag name => "Tag(ProperName(" ++ Text.showText name ++ "))"
  | .length n => "ArrayLength(" ++ Decimal.digitsText n.toNat ++ ")"

/-- An accessor as a dump shows it. -/
def Accessor.dump : Accessor → String
  | .property name => "." ++ name
  | .index i => "[" ++ Decimal.digitsText i.toNat ++ "]"
  | .field tag name => tag ++ "." ++ name

/-- A literal as a dump shows it. -/
def Literal.dump : Literal → String
  | .int i => Decimal.intText i.toInt
  | .number x => Decimal.literalText "inf" x
  | .text s => Text.showText s
  | .char c => "#\\" ++ c.toString
  | .boolean b => if b then "#t" else "#f"

namespace Term

variable {α : Type}

/-! ## Pieces -/

/-- The word at the head of a list. -/
def keyword (word : String) : Doc := .styled { color := .green } word

/-- A name that stands out. -/
def nameDoc (name : String) : Doc := .styled { color := .blue, bold := true } name

/-- A level behind a binder. -/
def levelText (level : UInt32) : String := "@" ++ Decimal.digitsText level.toNat

/-- A binder. -/
def binderDoc (name : Option String) (level : UInt32) : Doc :=
  nameDoc (name.getD "") ++ .str (levelText level)

/-- The parameters of a function. -/
def paramsDoc (params : List Binder) : Doc :=
  .parens (.intersperse .space (params.map fun b => binderDoc b.name b.level))

/-- Documents each after an optional break. -/
def afterBreaks (ds : List Doc) : Doc := .concat (ds.map fun d => Doc.line ++ d)

/-- A list that starts with a word and breaks before each part. -/
def form (word : String) (parts : List Doc) : Doc :=
  .parens (.group (.indent 1 (keyword word ++ afterBreaks parts)))

/-- A list whose parts are aligned with its first word. -/
def aligned (d : Doc) : Doc := .parens (.group (.align (.indent 1 d)))

/-- A key with its value. -/
def fieldDoc (key : String) (value : Doc) : Doc := .brackets (.str key ++ (Doc.space ++ value))

/-- A part in brackets that may break after its head. -/
def entryDoc (head value : Doc) : Doc :=
  .brackets (.group (.indent 1 (head ++ (Doc.line ++ value))))

/-- The word for an application. -/
def appWord : Calling → String
  | .curried => "app"
  | .uncurried => "app*"
  | .effectful => "app!"

/-- The word for a function. -/
def absWord : Calling → String
  | .curried => "lambda"
  | .uncurried => "lambda*"
  | .effectful => "lambda!"

/-- A binder with what it is bound to, and the term it is bound in. -/
def bindingDoc (word : String) (b : Binder) (value body : Doc) : Doc :=
  let binding := Doc.brackets (.group (binderDoc b.name b.level ++ (Doc.space ++ value)))
  aligned (keyword word ++ (Doc.space ++ (.indent 1 binding ++ (Doc.line ++ body))))

/-! ## Terms -/

mutual

/-- A term, with `wrap` applied to what is shown for each node. -/
def doc (wrap : α → Doc → Doc) : Term α → Doc
  | global a name => wrap a (.parens (keyword "var" ++ (Doc.space ++ nameDoc name.text)))
  | bound a b => wrap a (.parens (keyword "local" ++ (Doc.space ++ binderDoc b.name b.level)))
  | lit a value => wrap a (.str value.dump)
  | array a items => wrap a (form "array" (docs wrap items))
  | record a fields =>
    wrap a (.parens (.group (.indent 1
      (keyword "record" ++ (Doc.line ++ .intersperse .line (fieldDocs wrap fields))))))
  | app a calling head args =>
    wrap a (.align (form (appWord calling) (doc wrap head :: docs wrap args)))
  | abs a calling params body =>
    wrap a (aligned (keyword (absWord calling) ++
      (Doc.space ++ (paramsDoc params ++ (Doc.line ++ doc wrap body)))))
  | access a subject accessor =>
    wrap a (.parens (.group (.indent 1
      (keyword "get" ++ (Doc.space ++ (.str accessor.dump ++ (Doc.line ++ doc wrap subject)))))))
  | update a subject fields =>
    wrap a (.parens (.group (.indent 1
      (keyword "update" ++ (Doc.space ++ (doc wrap subject ++
        (Doc.line ++ .intersperse .line (fieldDocs wrap fields))))))))
  | construct a type tag fields =>
    wrap a (.parens (.group (.indent 1
      (keyword "ctor" ++ (Doc.space ++ (nameDoc (type.text ++ "." ++ tag) ++
        afterBreaks (valueDocs wrap fields)))))))
  | constructor a tag fields =>
    wrap a (.parens (keyword "ctor-def" ++ (Doc.space ++ (nameDoc tag ++ (Doc.space ++
      .parens (.intersperse .space (fields.map .str)))))))
  | letIn a b value body => wrap a (bindingDoc "let" b (doc wrap value) (doc wrap body))
  | letRec a level bindings body =>
    wrap a (aligned (keyword "letrec" ++ (Doc.space ++
      (.align (.parens (.intersperse .line (entryDocs wrap level bindings))) ++
        (Doc.line ++ doc wrap body)))))
  | bindEffect a b effect body => wrap a (bindingDoc "bind!" b (doc wrap effect) (doc wrap body))
  | pureEffect a value => wrap a (form "pure!" [doc wrap value])
  | deferEffect a effect => wrap a (form "defer!" [doc wrap effect])
  | branch a arms default =>
    wrap a (aligned (keyword "branch" ++
      (afterBreaks (armDocs wrap arms) ++
        (Doc.line ++ entryDoc (.text "else") (doc wrap default)))))
  | test a subject guard =>
    wrap a (.parens (.group (.indent 1
      (keyword "test" ++ (Doc.space ++ (.str guard.dump ++ (Doc.line ++ doc wrap subject)))))))
  | unary a op operand => wrap a (form op.name [doc wrap operand])
  | binary a op left right => wrap a (form op.name [doc wrap left, doc wrap right])
  | undefined a => wrap a (.parens (.text "undefined"))
  | fail a message =>
    wrap a (.parens (.styled { color := .red } "fail" ++
      (Doc.space ++ .str (Text.showText message))))

/-- Terms, one by one. -/
def docs (wrap : α → Doc → Doc) : List (Term α) → List Doc
  | [] => []
  | t :: rest => doc wrap t :: docs wrap rest

/-- Fields with their keys, one by one. -/
def fieldDocs (wrap : α → Doc → Doc) : List (String × Term α) → List Doc
  | [] => []
  | (key, t) :: rest => fieldDoc key (doc wrap t) :: fieldDocs wrap rest

/-- The values of fields, one by one. -/
def valueDocs (wrap : α → Doc → Doc) : List (String × Term α) → List Doc
  | [] => []
  | (_, t) :: rest => doc wrap t :: valueDocs wrap rest

/-- Recursive bindings of one level, one by one. -/
def entryDocs (wrap : α → Doc → Doc) (level : UInt32) : List (String × Term α) → List Doc
  | [] => []
  | (name, t) :: rest =>
    entryDoc (binderDoc (some name) level) (doc wrap t) :: entryDocs wrap level rest

/-- The arms of a branch, one by one. -/
def armDocs (wrap : α → Doc → Doc) : List (Term α × Term α) → List Doc
  | [] => []
  | (cond, body) :: rest => entryDoc (doc wrap cond) (doc wrap body) :: armDocs wrap rest

end

end Term

/-- A plain expression as a dump shows it. -/
def Expr.dump (e : Expr) : Doc := Term.doc (fun _ d => d) e

end TailLoop
