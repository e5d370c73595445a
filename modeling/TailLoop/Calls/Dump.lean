import TailLoop.Calls.Analyze
import TailLoop.Term.Dump

/-!
# Dumps of analysed terms

An analysed term is shown like a plain one, with the summaries that have something to report in
braces around their nodes.
-/

namespace TailLoop

open Layout

namespace Analysis

/-- The entry of one reference: tail calls, all calls, numbers of arguments. -/
def entryDoc (a : Analysis) (r : Ref) (c : Call) : Doc :=
  let arities := " ".intercalate (c.arities.map Decimal.digitsText)
  .brackets (Term.nameDoc r.text ++ .text (" " ++ Decimal.digitsText (a.tailCallsOf r) ++ "/"
    ++ Decimal.digitsText c.count ++ " (" ++ arities ++ ")"))

/-- The entries of a summary, those of inner binders first. -/
def entryDocs (a : Analysis) : List Doc :=
  let (inner, top) := a.calls.entries.partition fun e => e.1.isBound
  (inner ++ top).map fun e => a.entryDoc e.1 e.2

/-- A summary. -/
def doc (a : Analysis) : Doc :=
  let head := Doc.styled { color := .magenta } "tco"
  let mark := if a.isLoop then Doc.space ++ .styled { color := .red, bold := true } "loop" else .nil
  head ++ (mark ++ (Doc.space ++ .intersperse .space a.entryDocs))

/-- Puts a summary around a node, if it has something to report. -/
def wrap (a : Analysis) (d : Doc) : Doc :=
  if a.isEmpty then d else .braces (.group (.indent 1 (a.doc ++ (Doc.line ++ d))))

end Analysis

/-- An analysed term as a dump shows it. -/
def Analyzed.dump (t : Analyzed) : Doc := Term.doc Analysis.wrap t

end TailLoop
