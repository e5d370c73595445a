import TailLoop.Json.Basic
import TailLoop.Term.Basic

/-!
# Terms as JSON

The JSON form of terms. A node is an object with one member, named for the node's shape; the name
alone stands for a shape without parts. Notes are not written.
-/

namespace TailLoop

/-- The name of an operator in JSON and in dumps. -/
def UnaryOp.name : UnaryOp → String
  | .not => "Not"
  | .negate => "Negate"
  | .bitNot => "BitNot"

/-- The name of an operator in JSON and in dumps. -/
def BinaryOp.name : BinaryOp → String
  | .add => "Add"
  | .sub => "Sub"
  | .mul => "Mul"
  | .div => "Div"
  | .mod => "Mod"
  | .eq => "Eq"
  | .notEq => "NotEq"
  | .lt => "Lt"
  | .lte => "Lte"
  | .gt => "Gt"
  | .gte => "Gte"
  | .and => "And"
  | .or => "Or"

/-- An object with one member. -/
def Json.tagged (name : String) (j : Json) : Json := .object [(name, j)]

/-- An object with one member that is a sequence. -/
def Json.taggedList (name : String) (js : List Json) : Json := .tagged name (.array js)

/-- A double as JSON; those that are not finite have no number and are null. -/
def Json.double (x : Float) : Json := if x.isFinite then .num (.float x) else .null

/-- A level as JSON. -/
def encodeLevel (level : UInt32) : Json := .int level.toNat

/-- A top-level name as JSON. -/
def Qualified.encode (q : Qualified) : Json :=
  .object [("module", .ofText? q.module), ("ident", .str q.ident)]

/-- A parameter as JSON. -/
def Binder.encode (b : Binder) : Json :=
  .object [("name", .ofText? b.name), ("level", encodeLevel b.level)]

/-- A literal without parts as JSON. -/
def Literal.encode : Literal → Json
  | .int i => .tagged "Int" (.int i.toInt)
  | .number x => .tagged "Number" (.double x)
  | .text s => .tagged "String" (.str s)
  | .char c => .tagged "Char" (.str c.toString)
  | .boolean b => .tagged "Boolean" (.bool b)

/-- An accessor as JSON. -/
def Accessor.encode : Accessor → Json
  | .property name => .tagged "Prop" (.str name)
  | .index i => .tagged "Index" (.int i.toNat)
  | .field tag name => .taggedList "CtorField" [.str tag, .str name]

/-- A guard as JSON. -/
def Guard.encode : Guard → Json
  | .number x => .tagged "Number" (.double x)
  | .int i => .tagged "Int" (.int i.toInt)
  | .text s => .tagged "String" (.str s)
  | .char c => .tagged "Char" (.str c.toString)
  | .boolean b => .tagged "Boolean" (.bool b)
  | .tag name => .tagged "Tag" (.str name)
  | .length n => .tagged "ArrayLength" (.int n.toNat)

namespace Term

variable {α : Type}

/-- The name of an application in JSON. -/
def appName : Calling → String
  | .curried => "App"
  | .uncurried => "UncurriedApp"
  | .effectful => "UncurriedEffectApp"

/-- The name of a function in JSON. -/
def absName : Calling → String
  | .curried => "Abs"
  | .uncurried => "UncurriedAbs"
  | .effectful => "UncurriedEffectAbs"

/-- The name of a node's shape in JSON. -/
def shape : Term α → String
  | global .. => "Var"
  | bound .. => "Local"
  | lit .. | array .. | record .. => "Lit"
  | app _ calling _ _ => appName calling
  | abs _ calling _ _ => absName calling
  | access .. => "Accessor"
  | update .. => "Update"
  | construct .. => "CtorSaturated"
  | constructor .. => "CtorDef"
  | letIn .. => "Let"
  | letRec .. => "LetRec"
  | bindEffect .. => "EffectBind"
  | pureEffect .. => "EffectPure"
  | deferEffect .. => "EffectDefer"
  | branch .. => "Branch"
  | test .. => "Test"
  | unary .. | binary .. => "PrimOp"
  | undefined .. => "PrimUndefined"
  | fail .. => "Fail"

mutual

/-- A term as JSON. -/
def encode : Term α → Json
  | global _ name => .tagged "Var" name.encode
  | bound _ b => .taggedList "Local" [.ofText? b.name, encodeLevel b.level]
  | lit _ value => .tagged "Lit" value.encode
  | array _ items => .tagged "Lit" (.taggedList "Array" (encodeList items))
  | record _ fields => .tagged "Lit" (.taggedList "Record" (encodeFields fields))
  | app _ calling head args => .taggedList (appName calling) [encode head, .array (encodeList args)]
  | abs _ calling params body =>
    .taggedList (absName calling) [.array (params.map Binder.encode), encode body]
  | access _ subject accessor => .taggedList "Accessor" [encode subject, accessor.encode]
  | update _ subject fields => .taggedList "Update" [encode subject, .array (encodeFields fields)]
  | construct _ type tag fields =>
    .taggedList "CtorSaturated" [type.encode, .str tag, .array (encodeFields fields)]
  | constructor _ tag fields => .taggedList "CtorDef" [.str tag, .array (fields.map .str)]
  | letIn _ b value body =>
    .taggedList "Let" [.ofText? b.name, encodeLevel b.level, encode value, encode body]
  | letRec _ level bindings body =>
    .taggedList "LetRec" [encodeLevel level, .array (encodeBindings bindings), encode body]
  | bindEffect _ b effect body =>
    .taggedList "EffectBind" [.ofText? b.name, encodeLevel b.level, encode effect, encode body]
  | pureEffect _ value => .tagged "EffectPure" (encode value)
  | deferEffect _ effect => .tagged "EffectDefer" (encode effect)
  | branch _ arms default => .taggedList "Branch" [.array (encodeArms arms), encode default]
  | test _ subject guard => .taggedList "Test" [encode subject, guard.encode]
  | unary _ op operand => .tagged "PrimOp" (.taggedList "Op1" [.str op.name, encode operand])
  | binary _ op left right =>
    .tagged "PrimOp" (.taggedList "Op2" [.str op.name, encode left, encode right])
  | undefined _ => .str "PrimUndefined"
  | fail _ message => .tagged "Fail" (.str message)

/-- Terms as JSON. -/
def encodeList : List (Term α) → List Json
  | [] => []
  | t :: rest => encode t :: encodeList rest

/-- Named parts of a record as JSON. -/
def encodeFields : List (String × Term α) → List Json
  | [] => []
  | (name, t) :: rest => .object [("key", .str name), ("value", encode t)] :: encodeFields rest

/-- Bindings as JSON. -/
def encodeBindings : List (String × Term α) → List Json
  | [] => []
  | (name, t) :: rest => .array [.str name, encode t] :: encodeBindings rest

/-- The arms of a branch as JSON. -/
def encodeArms : List (Term α × Term α) → List Json
  | [] => []
  | (cond, body) :: rest =>
    .object [("cond", encode cond), ("body", encode body)] :: encodeArms rest

end

end Term

end TailLoop
