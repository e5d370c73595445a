import TailLoop.Lower.Code

/-!
# Lowering modules

A unit becomes a script module: its imports, the declarations of its bindings group by group, each
binding in an environment of its own, and its exports.
-/

namespace TailLoop.Lower

open Script

/-- Lowers a top-level binding to its declaration. -/
def binding (c : Context) (name : String) (t : Analyzed) : Outcome (List Stmt) :=
  Lowering.runIn (do return [.const name (← (code c t).value)]) (.ofContext c)

/-- Two results after each other. -/
def Outcome.cat {α : Type} (a b : Outcome (List α)) : Outcome (List α) :=
  ⟨a.result ++ b.result, a.reports ++ b.reports, a.clash.or b.clash⟩

/-- Results after each other. -/
def Outcome.concat {α : Type} (os : List (Outcome (List α))) : Outcome (List α) :=
  os.foldr Outcome.cat ⟨[], [], none⟩

/-- The members of a top-level group as members of a loop. -/
def topMembers? (c : Context) (bindings : List (String × Analyzed)) : Option (List Member) :=
  loopMembers? (bindings.map Prod.fst) (topRefs c.name bindings) (bindingCodes c bindings)

/-- The name reserved for the shared function of a top-level group. -/
def groupDispatcher? (c : Context) (bindings : List (String × Analyzed)) : Option String :=
  bindings.head?.bind fun b => c.dispatcher? b.1

/-- Lowers a top-level group. -/
def group (c : Context) (g : AnalyzedGroup) : Outcome (List Stmt) :=
  match g.isLoop && c.loops, topMembers? c g.bindings with
  | true, some members =>
    (loopDeclarations members (groupDispatcher? c g.bindings)).runIn (.ofContext c)
  | _, _ => .concat (g.bindings.map fun b => binding c b.1 b.2)

/-- Where an exported name comes from, if not from this module. -/
def exportSource (c : Context) (e : Export) : Option String :=
  match e.module with
  | some m => some (modulePath m)
  | none => if c.isForeign e.ident then some foreignPath else none

/-- An exported name, with its public name if that differs. -/
def exportName (e : Export) : String × Option String :=
  (e.ident, e.publicName.filter fun p => decide (p ≠ e.ident))

/-- The exports of a module, those of one source together, sources in order of appearance. -/
def exportLists (c : Context) (exports : List Export) : List ExportList :=
  let bySource : Table (Option String) (List (String × Option String)) :=
    exports.foldl (fun t e => t.alter (exportSource c e) fun old => old.getD [] ++ [exportName e])
      .empty
  bySource.entries.map fun e => ⟨e.2, e.1⟩

/-- The imports of a module. -/
def importList (u : CompilationUnit) : List Import :=
  u.imports.map (fun m => ⟨moduleAlias m, modulePath m⟩)
    ++ if u.foreignNames.isEmpty then [] else [⟨foreignAlias, foreignPath⟩]

/-- Lowers a unit, with or without loops. The journal starts with the analysis of all groups. -/
def module (u : CompilationUnit) (loops : Bool) : Outcome Script.Module :=
  let c := Context.ofUnit u loops
  let groups := u.analyze
  let declarations := Outcome.concat (groups.map (group c))
  ⟨⟨importList u, declarations.result, exportLists c u.exports⟩,
    groups.flatMap (AnalyzedGroup.reports u.name) ++ declarations.reports, declarations.clash⟩

end TailLoop.Lower

namespace TailLoop

/-- The script module of a unit with the journal of its making, unless a call clashes with the loop
it is in. -/
def CompilationUnit.lower (u : CompilationUnit) (loops : Bool) :
    Except Lower.ArityClash (Script.Module × List Report) :=
  let outcome := Lower.module u loops
  match outcome.clash with
  | some clash => .error clash
  | none => .ok (outcome.result, outcome.reports)

end TailLoop
