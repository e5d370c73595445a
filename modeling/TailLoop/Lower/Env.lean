import TailLoop.Calls.Ref
import TailLoop.Lower.Context

/-!
# Environments of the lowering

While a top-level binding is lowered, an `Env` keeps the names given to its binders and the loops
that are being written, the innermost first.
-/

namespace TailLoop.Lower

/-- A loop that is being written. -/
structure LoopScope where
  /-- The name of the loop, with which the names of its slots start. -/
  label : String
  /-- The members of the loop, with their numbers of parameters. -/
  members : List (Ref × Nat)
  /-- The variable that says which member runs next, if there are several. -/
  selector : Option String
  /-- The variables that carry arguments from one round to the next. -/
  slots : List String
  deriving DecidableEq

/-- A loop member that a call refers to. -/
structure Jump where
  /-- The loop. -/
  scope : LoopScope
  /-- The position of the member in the loop. -/
  member : Nat
  /-- The number of parameters of the member. -/
  arity : Nat
  /-- How many loops lie inside this one. -/
  exited : Nat
  deriving DecidableEq

/-- The state of names and loops. -/
structure Env where
  /-- For every taken name, the number of the candidate to be tried next. -/
  counters : Table String Nat
  /-- The names given to binders. -/
  names : Table Binder String
  /-- The loops that are being written, the innermost first. -/
  scopes : List LoopScope

namespace Env

/-- The environment in which the lowering of a top-level binding starts. -/
def ofContext (c : Context) : Env := ⟨.ofList (c.reserved.map fun s => (s, 1)), .empty, []⟩

/-- Whether a name is taken. -/
def isTaken (e : Env) (name : String) : Bool := e.counters.contains name

/-- A name that is not taken yet, made from `base`, and the environment in which it is. -/
def fresh (e : Env) (base : String) : String × Env :=
  let start := (e.counters.get? base).getD 0
  let n := firstFree e.isTaken base (e.counters.size + 1) start
  let name := candidate base n
  (name, { e with counters := (e.counters.insert base (n + 1)).insertNew name 1 })

/-- The name of a binder that has none of its own. -/
def unnamed (level : UInt32) : String := "_" ++ Decimal.digitsText level.toNat

/-- Names a binder. -/
def bind (e : Env) (b : Binder) : String × Env :=
  let (ident, e) := match b.name with
    | some name => e.fresh name
    | none => (unnamed b.level, e)
  (ident, { e with names := e.names.insert b ident })

/-- The name of a binder; an unknown one is named by its level. -/
def lookup (e : Env) (b : Binder) : String := (e.names.get? b).getD (unnamed b.level)

/-- Enters a loop. -/
def push (e : Env) (s : LoopScope) : Env := { e with scopes := s :: e.scopes }

/-- The number of loops that are being written. -/
def depth (e : Env) : Nat := e.scopes.length

/-- Leaves all but the `depth` outermost loops. -/
def truncate (e : Env) (depth : Nat) : Env :=
  { e with scopes := e.scopes.drop (e.scopes.length - depth) }

/-- The innermost loop with a member `r`, given how many lie inside the first of `scopes`. -/
def findIn (r : Ref) (exited : Nat) : List LoopScope → Option Jump
  | [] => none
  | s :: rest =>
    match s.members.findIdx? fun m => decide (m.1 = r) with
    | some i => some ⟨s, i, ((s.members[i]?).map Prod.snd).getD 0, exited⟩
    | none => findIn r (exited + 1) rest

/-- The innermost loop with a member `r`. -/
def findJump? (e : Env) (r : Ref) : Option Jump := findIn r 0 e.scopes

end Env

end TailLoop.Lower
