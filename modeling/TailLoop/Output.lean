import TailLoop.Calls.Dump
import TailLoop.Layout.Render
import TailLoop.Lower.Module
import TailLoop.Script.Printer

/-!
# Outputs of a unit

The three things that can be printed for a unit: its script, its terms, and its terms with their
call summaries.
-/

namespace TailLoop

/-- How documents are turned into text. -/
structure Printing where
  /-- The line width. -/
  width : Nat := 80
  /-- Whether the text is highlighted. -/
  color : Bool := false

/-- The text of a document. -/
def Printing.text (p : Printing) (d : Layout.Doc) : String := d.render p.width p.color

/-- Named texts of a group of bindings. -/
structure GroupDump where
  /-- Whether the members refer to each other. -/
  recursive : Bool
  /-- Whether the group is a loop. -/
  isLoop : Bool
  /-- The texts of the bindings. -/
  bindings : List (String × String)

namespace CompilationUnit

/-- The script of a unit. -/
def script (u : CompilationUnit) (p : Printing) (loops : Bool) :
    Except Lower.ArityClash String := do
  let (m, _) ← u.lower loops
  return p.text m.doc

/-- The terms of a unit. -/
def termDumps (u : CompilationUnit) (p : Printing) : List (String × String) :=
  u.bindings.map fun b => (b.1, p.text (Expr.dump b.2))

/-- The terms of a unit with their call summaries. -/
def callDumps (u : CompilationUnit) (p : Printing) : List GroupDump :=
  u.analyze.map fun g =>
    ⟨g.recursive, g.isLoop, g.bindings.map fun b => (b.1, p.text (Analyzed.dump b.2))⟩

end CompilationUnit

end TailLoop
