import TailLoop.Term.Decode

/-!
# Compilation units

One module of the source language: its name, the modules it imports, the names that are provided
from outside, its bindings in groups, and what it exports.
-/

namespace TailLoop

/-- A group of top-level bindings that refer to each other. -/
structure BindingGroup where
  /-- Whether the members refer to each other, or a single one to itself. -/
  recursive : Bool
  /-- The bindings, in order. -/
  bindings : List (String × Expr)

/-- A name that a module publishes. -/
structure Export where
  /-- The name of the binding. -/
  ident : String
  /-- The name it is published under, if that is given. -/
  publicName : Option String
  /-- The module it comes from, if that is another one. -/
  module : Option String

/-- A module of the source language. -/
structure CompilationUnit where
  /-- The name of the module. -/
  name : String
  /-- The imported modules. -/
  imports : List String
  /-- The names that are provided from outside. -/
  foreignNames : List String
  /-- The groups of bindings, each after those it depends on. -/
  groups : List BindingGroup
  /-- The published names. -/
  exports : List Export

/-- A unit without contents. -/
def CompilationUnit.empty (name : String) : CompilationUnit := ⟨name, [], [], [], []⟩

/-- All bindings of a unit, in order. -/
def CompilationUnit.bindings (u : CompilationUnit) : List (String × Expr) :=
  u.groups.flatMap BindingGroup.bindings

/-- A group of bindings as JSON. -/
def BindingGroup.encode (g : BindingGroup) : Json :=
  .object [("recursive", .bool g.recursive), ("bindings", .array (Term.encodeBindings g.bindings))]

/-- An export as JSON. -/
def Export.encode (e : Export) : Json :=
  .object [("ident", .str e.ident), ("public_name", .ofText? e.publicName),
    ("module", .ofText? e.module)]

/-- A unit as JSON, with every field present. -/
def CompilationUnit.encode (u : CompilationUnit) : Json :=
  .object [("name", .str u.name),
    ("imports", .array (u.imports.map .str)),
    ("foreign", .array (u.foreignNames.map .str)),
    ("groups", .array (u.groups.map BindingGroup.encode)),
    ("exports", .array (u.exports.map Export.encode))]

namespace Decoder

/-- Decodes a group of bindings. -/
def bindingGroup : Decoder BindingGroup :=
  let bindings := list (pair text expr)
  record "BindingGroup" 2 ((none, none) : Option Bool × Option (List (String × Expr)))
    [field "recursive" (·.1) (fun s a => (some a, s.2)) boolean,
     field "bindings" (·.2) (fun s a => (s.1, some a)) bindings]
    (fun s => do return ⟨s.1.getD false, ← require "bindings" s.2⟩)
    (do return ⟨← elementOr (some false) boolean, ← element bindings⟩)

/-- The fields of an export that were met. -/
structure ExportFields where
  /-- The name of the binding. -/
  ident : Option String := none
  /-- The name it is published under. -/
  publicName : Option (Option String) := none
  /-- The module it comes from. -/
  module : Option (Option String) := none

/-- Decodes an export. -/
def exported : Decoder Export :=
  let name := optional text
  record "Export" 3 ({} : ExportFields)
    [field "ident" (·.ident) (fun s a => { s with ident := some a }) text,
     field "public_name" (·.publicName) (fun s a => { s with publicName := some a }) name,
     field "module" (·.module) (fun s a => { s with module := some a }) name]
    (fun s => do return ⟨← require "ident" s.ident, s.publicName.getD none, s.module.getD none⟩)
    (do return ⟨← element text, ← elementOr (some none) name, ← elementOr (some none) name⟩)

/-- The fields of a unit that were met. -/
structure UnitFields where
  /-- The name of the module. -/
  name : Option String := none
  /-- The imported modules. -/
  imports : Option (List String) := none
  /-- The names that are provided from outside. -/
  foreignNames : Option (List String) := none
  /-- The groups of bindings. -/
  groups : Option (List BindingGroup) := none
  /-- The published names. -/
  exports : Option (List Export) := none

/-- Decodes a unit; only its name must be there. -/
def compilationUnit : Decoder CompilationUnit :=
  let names := list text
  let groups := list bindingGroup
  let exports := list exported
  record "CompilationUnit" 5 ({} : UnitFields)
    [field "name" (·.name) (fun s a => { s with name := some a }) text,
     field "imports" (·.imports) (fun s a => { s with imports := some a }) names,
     field "foreign" (·.foreignNames) (fun s a => { s with foreignNames := some a }) names,
     field "groups" (·.groups) (fun s a => { s with groups := some a }) groups,
     field "exports" (·.exports) (fun s a => { s with exports := some a }) exports]
    (fun s => do
      return ⟨← require "name" s.name, s.imports.getD [], s.foreignNames.getD [],
        s.groups.getD [], s.exports.getD []⟩)
    (do
      return ⟨← element text, ← elementOr (some []) names, ← elementOr (some []) names,
        ← elementOr (some []) groups, ← elementOr (some []) exports⟩)

end Decoder

end TailLoop
