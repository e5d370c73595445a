import TailLoop.Text.Letters

/-!
# Identifiers

Which texts can stand as identifiers, and how a name that cannot is written.
-/

namespace TailLoop.Script

/-- Words with a meaning of their own. -/
def reservedWords : List String :=
  ["abstract", "arguments", "await", "boolean", "break", "byte", "case", "catch", "char",
   "class", "const", "continue", "debugger", "default", "delete", "do", "double", "else",
   "enum", "eval", "export", "extends", "false", "final", "finally", "float", "for",
   "function", "goto", "if", "implements", "import", "in", "instanceof", "int",
   "interface", "let", "long", "native", "new", "null", "package", "private", "protected",
   "public", "return", "short", "static", "super", "switch", "synchronized", "this",
   "throw", "throws", "transient", "true", "try", "typeof", "var", "void", "volatile",
   "while", "with", "yield", "undefined", "NaN", "Infinity"]

/-- One character of a name: a prime becomes `$p`. -/
def escapeChar (c : Char) : List Char := if c = '\x27' then ['$', 'p'] else [c]

/-- A name as it is written: a reserved word gets `$$` in front, primes become `$p`. -/
def escapeIdent (name : String) : String :=
  if name ∈ reservedWords then "$$" ++ name
  else String.ofList (name.toList.flatMap escapeChar)

/-- What escaping adds to a name has a dollar sign. -/
theorem escapeIdent_of_dollar_notMem {name : String} (h : '$' ∉ (escapeIdent name).toList) :
    escapeIdent name = name := by
  unfold escapeIdent at h ⊢
  split at h
  next => simp at h
  next hreserved =>
    rw [if_neg hreserved]
    have hchars (c : Char) (hc : c ∈ name.toList) : escapeChar c = [c] := by
      refine if_neg fun hprime => h ?_
      rw [String.toList_ofList]
      exact List.mem_flatMap.2 ⟨c, hc, by simp [escapeChar, hprime]⟩
    rw [List.flatMap_def, List.map_congr_left hchars, ← List.flatMap_def]
    simp

/-- Whether `c` can start an identifier. -/
def isIdentStart (c : Char) : Bool := c = '$' || c = '_' || Text.isLetter c

/-- Whether `c` can follow in an identifier. -/
def isIdentRest (c : Char) : Bool := c = '$' || c = '_' || Text.isLetterOrNumber c

/-- Whether a text can stand as an identifier, reserved words included. -/
def isIdentName (name : String) : Bool :=
  match name.toList with
  | [] => false
  | c :: rest => isIdentStart c && rest.all isIdentRest

end TailLoop.Script
