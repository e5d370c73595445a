/-!
# Terms

Terms of a small functional language whose optimizer has already run. A `Term α` carries a note of
type `α` at every node: plain expressions carry nothing, analysed ones a summary of the calls below
the node. Binders are told apart by name and level, so that shadowing needs no renaming.
-/

namespace TailLoop

/-- A top-level name, with its module unless it belongs to the module at hand. -/
structure Qualified where
  /-- The module, if it is named. -/
  module : Option String
  /-- The name within the module. -/
  ident : String
  deriving DecidableEq

/-- The text of a top-level name. -/
def Qualified.text (q : Qualified) : String :=
  match q.module with
  | some m => m ++ "." ++ q.ident
  | none => q.ident

/-- The identity of a lexical binder: members of one recursive group share a level and differ in
name, shadowed binders differ in level. -/
structure Binder where
  /-- The name, if it has one. -/
  name : Option String
  /-- The nesting depth at which it binds. -/
  level : UInt32
  deriving DecidableEq

/-- How a function takes its arguments. -/
inductive Calling where
  /-- One at a time. -/
  | curried
  /-- All at once. -/
  | uncurried
  /-- All at once, and the result is an effect that runs immediately. -/
  | effectful
  deriving DecidableEq

/-- A literal without parts. -/
inductive Literal where
  | int (value : Int64)
  | number (value : Float)
  | text (value : String)
  | char (value : Char)
  | boolean (value : Bool)

/-- What is read from a compound value. -/
inductive Accessor where
  /-- A property of a record. -/
  | property (name : String)
  /-- An element of an array. -/
  | index (position : UInt64)
  /-- A field of a constructed value. -/
  | field (tag name : String)

/-- A test of a pattern match. -/
inductive Guard where
  | number (value : Float)
  | int (value : Int64)
  | text (value : String)
  | char (value : Char)
  | boolean (value : Bool)
  /-- The value was built by this constructor. -/
  | tag (name : String)
  /-- The value is an array of this length. -/
  | length (value : UInt64)

/-- A primitive operator of one operand. -/
inductive UnaryOp where
  | not
  | negate
  | bitNot
  deriving DecidableEq

/-- A primitive operator of two operands. -/
inductive BinaryOp where
  | add
  | sub
  | mul
  | div
  | mod
  | eq
  | notEq
  | lt
  | lte
  | gt
  | gte
  | and
  | or
  deriving DecidableEq

/-- A term with a note at every node. -/
inductive Term (α : Type) where
  /-- A top-level name. -/
  | global (note : α) (name : Qualified)
  /-- A variable bound inside the term. -/
  | bound (note : α) (binder : Binder)
  | lit (note : α) (value : Literal)
  | array (note : α) (items : List (Term α))
  | record (note : α) (fields : List (String × Term α))
  | app (note : α) (calling : Calling) (head : Term α) (args : List (Term α))
  | abs (note : α) (calling : Calling) (params : List Binder) (body : Term α)
  | access (note : α) (subject : Term α) (accessor : Accessor)
  /-- A copy of a record with some fields replaced. -/
  | update (note : α) (subject : Term α) (fields : List (String × Term α))
  /-- A value built by a constructor with all its fields. -/
  | construct (note : α) (type : Qualified) (tag : String) (fields : List (String × Term α))
  /-- A constructor as a function of its fields. -/
  | constructor (note : α) (tag : String) (fields : List String)
  | letIn (note : α) (binder : Binder) (value body : Term α)
  /-- Mutually recursive bindings, all at one level. -/
  | letRec (note : α) (level : UInt32) (bindings : List (String × Term α)) (body : Term α)
  /-- Runs an effect and goes on with its result. -/
  | bindEffect (note : α) (binder : Binder) (effect body : Term α)
  /-- The effect that does nothing and gives a value. -/
  | pureEffect (note : α) (value : Term α)
  /-- An effect that is built when it runs. -/
  | deferEffect (note : α) (effect : Term α)
  /-- The first arm whose condition holds, otherwise the default. -/
  | branch (note : α) (arms : List (Term α × Term α)) (default : Term α)
  | test (note : α) (subject : Term α) (guard : Guard)
  | unary (note : α) (op : UnaryOp) (operand : Term α)
  | binary (note : α) (op : BinaryOp) (left right : Term α)
  | undefined (note : α)
  /-- A failure with a message. -/
  | fail (note : α) (message : String)

/-- A term without notes. -/
abbrev Expr := Term Unit

namespace Term

variable {α β : Type}

instance [Inhabited α] : Inhabited (Term α) := ⟨.undefined default⟩

/-- The note at the root. -/
def note : Term α → α
  | global a _ | bound a _ | lit a _ | array a _ | record a _ | app a _ _ _ | abs a _ _ _
  | access a _ _ | update a _ _ | construct a _ _ _ | constructor a _ _ | letIn a _ _ _
  | letRec a _ _ _ | bindEffect a _ _ _ | pureEffect a _ | deferEffect a _ | branch a _ _
  | test a _ _ | unary a _ _ | binary a _ _ _ | undefined a | fail a _ => a

/-- The immediate subterms, in source order. -/
def children : Term α → List (Term α)
  | global .. | bound .. | lit .. | constructor .. | undefined .. | fail .. => []
  | array _ items => items
  | record _ fields => fields.map Prod.snd
  | app _ _ head args => head :: args
  | abs _ _ _ body => [body]
  | access _ subject _ => [subject]
  | update _ subject fields => subject :: fields.map Prod.snd
  | construct _ _ _ fields => fields.map Prod.snd
  | letIn _ _ value body => [value, body]
  | letRec _ _ bindings body => bindings.map Prod.snd ++ [body]
  | bindEffect _ _ effect body => [effect, body]
  | pureEffect _ value => [value]
  | deferEffect _ effect => [effect]
  | branch _ arms default => arms.flatMap (fun arm => [arm.1, arm.2]) ++ [default]
  | test _ subject _ => [subject]
  | unary _ _ operand => [operand]
  | binary _ _ left right => [left, right]

/-- The number of parameters of a curried function, zero for every other term. -/
def arity : Term α → Nat
  | abs _ .curried params _ => params.length
  | _ => 0

/-- Whether the value of the term is written as an object literal. -/
def isObject : Term α → Bool
  | record .. | construct .. | update .. => true
  | _ => false

mutual

/-- Changes the note of every node. -/
def map (f : α → β) : Term α → Term β
  | global a name => .global (f a) name
  | bound a binder => .bound (f a) binder
  | lit a value => .lit (f a) value
  | array a items => .array (f a) (mapList f items)
  | record a fields => .record (f a) (mapFields f fields)
  | app a calling head args => .app (f a) calling (map f head) (mapList f args)
  | abs a calling params body => .abs (f a) calling params (map f body)
  | access a subject accessor => .access (f a) (map f subject) accessor
  | update a subject fields => .update (f a) (map f subject) (mapFields f fields)
  | construct a type tag fields => .construct (f a) type tag (mapFields f fields)
  | constructor a tag fields => .constructor (f a) tag fields
  | letIn a binder value body => .letIn (f a) binder (map f value) (map f body)
  | letRec a level bindings body => .letRec (f a) level (mapFields f bindings) (map f body)
  | bindEffect a binder effect body => .bindEffect (f a) binder (map f effect) (map f body)
  | pureEffect a value => .pureEffect (f a) (map f value)
  | deferEffect a effect => .deferEffect (f a) (map f effect)
  | branch a arms default => .branch (f a) (mapArms f arms) (map f default)
  | test a subject guard => .test (f a) (map f subject) guard
  | unary a op operand => .unary (f a) op (map f operand)
  | binary a op left right => .binary (f a) op (map f left) (map f right)
  | undefined a => .undefined (f a)
  | fail a message => .fail (f a) message

/-- Changes the notes of a list of terms. -/
def mapList (f : α → β) : List (Term α) → List (Term β)
  | [] => []
  | t :: rest => map f t :: mapList f rest

/-- Changes the notes of named terms. -/
def mapFields (f : α → β) : List (String × Term α) → List (String × Term β)
  | [] => []
  | (name, t) :: rest => (name, map f t) :: mapFields f rest

/-- Changes the notes of the arms of a branch. -/
def mapArms (f : α → β) : List (Term α × Term α) → List (Term β × Term β)
  | [] => []
  | (cond, body) :: rest => (map f cond, map f body) :: mapArms f rest

end

/-- Forgets all notes. -/
def erase (t : Term α) : Expr := t.map fun _ => ()

end Term

end TailLoop
