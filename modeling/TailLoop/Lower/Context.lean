import TailLoop.CompilationUnit
import TailLoop.Lower.FreshName
import TailLoop.Table

/-!
# Module contexts

What the lowering of a binding must know of its module: which names are taken at module scope, which
are provided from outside, and the name of the function that each group of mutually recursive
bindings shares.
-/

namespace TailLoop.Lower

/-- The name under which everything from outside is imported. -/
def foreignAlias : String := "$foreign"

/-- Where the names from outside are found. -/
def foreignPath : String := "./foreign.js"

/-- The name under which a module is imported: dots become `$d`. -/
def moduleAlias (module : String) : String :=
  String.ofList (module.toList.flatMap fun c => if c = '.' then ['$', 'd'] else [c])

/-- Where a module is found. -/
def modulePath (module : String) : String := "../" ++ module ++ "/index.js"

/-- The context of a module. -/
structure Context where
  /-- The name of the module. -/
  name : String
  /-- Whether groups that can be loops become loops. -/
  loops : Bool
  /-- The names that are provided from outside. -/
  foreignNames : List String
  /-- The names that are taken at module scope. -/
  reserved : List String
  /-- The shared function of each group of mutually recursive bindings, by its first member. -/
  dispatchers : Table String String

namespace Context

/-- The members of a group of two or more mutually recursive bindings. -/
def mutualMembers (g : BindingGroup) : Option (String × List String) :=
  match g.bindings.map Prod.fst with
  | first :: second :: rest => if g.recursive then some (first, first :: second :: rest) else none
  | _ => none

/-- Names the shared function of a group, if it needs one, and reserves that name. -/
def addGroup (c : Context) (g : BindingGroup) : Context :=
  match mutualMembers g with
  | none => c
  | some (first, members) =>
    let base := "$" ++ "_".intercalate members
    let n := firstFree (fun s => c.reserved.contains s) base (c.reserved.length + 1) 0
    let label := candidate base n
    { c with reserved := c.reserved ++ [label], dispatchers := c.dispatchers.insert first label }

/-- The context of a unit. -/
def ofUnit (u : CompilationUnit) (loops : Bool) : Context :=
  let reserved := foreignAlias :: (u.imports.map moduleAlias ++ u.foreignNames
    ++ u.bindings.map Prod.fst)
  u.groups.foldl addGroup ⟨u.name, loops, u.foreignNames, reserved, .empty⟩

/-- The shared function of the group with this first member. -/
def dispatcher? (c : Context) (first : String) : Option String := c.dispatchers.get? first

/-- Whether a name is provided from outside. -/
def isForeign (c : Context) (ident : String) : Bool := c.foreignNames.contains ident

/-- Whether a top-level name belongs to this module. -/
def isLocal (c : Context) (q : Qualified) : Bool :=
  match q.module with
  | none => true
  | some m => m = c.name

end Context

end TailLoop.Lower
