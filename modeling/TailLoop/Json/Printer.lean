import TailLoop.Decimal.Style
import TailLoop.Json.Basic
import TailLoop.Text.Quoted

/-!
# Compact JSON texts

A value is written without blanks. Doubles keep a fraction or an exponent, so that they are not
read as integers; those that are not finite have no text of their own and are written as null.
-/

namespace TailLoop.Json

/-- Doubles are positional from `10 ^ -5` to below `10 ^ 16`, exponents always carry a sign, and of
two equally near decimals the even one is taken. -/
def numberStyle : Decimal.Style := ⟨-5, 16, "+", .even⟩

/-- The text of a double. -/
def floatText (x : Float) : String := if x.isFinite then numberStyle.text x else "null"

/-- The text of a number. -/
def numberText : Decimal.Number → String
  | .int i => Decimal.intText i
  | .float x => floatText x

mutual

/-- The compact text of a value. -/
def compress : Json → String
  | .null => "null"
  | .bool b => if b then "true" else "false"
  | .num n => numberText n
  | .str s => Text.quote s
  | .arr items _ => "[" ++ ",".intercalate (compressItems items) ++ "]"
  | .obj members _ => "\x7b" ++ ",".intercalate (compressMembers members) ++ "\x7d"
  | .unreadable .. => "null"

/-- The compact texts of the items of an array. -/
def compressItems : List Json → List String
  | [] => []
  | j :: rest => compress j :: compressItems rest

/-- The compact texts of the members of an object. -/
def compressMembers : List (Json × Json) → List String
  | [] => []
  | (k, j) :: rest => (compress k ++ ":" ++ compress j) :: compressMembers rest

end

end TailLoop.Json
