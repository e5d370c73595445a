import TailLoop.Decimal.Shortest

/-!
# Number texts

How a double is written out: its shortest decimal, in positional notation within a range of
magnitudes and with an exponent outside it. A `Style` records the decisions a format makes.
-/

namespace TailLoop.Decimal

/-- The decisions of a number format. -/
structure Style where
  /-- The least power of ten written positionally. -/
  lowest : Int
  /-- The first power of ten no longer written positionally. -/
  highest : Int
  /-- The sign written before a positive exponent. -/
  plus : String
  /-- Which of two equally near decimals is taken. -/
  tie : Tie

/-- The decimal digits of a number. -/
def digitsText (n : Nat) : String := String.ofList (Nat.toDigits 10 n)

/-- The decimal text of an integer. -/
def intText (i : Int) : String :=
  if i < 0 then "-" ++ digitsText i.natAbs else digitsText i.natAbs

/-- A text of `n` zeros. -/
def zeros (n : Nat) : String := String.ofList (List.replicate n '0')

namespace Numeral

/-- Positional notation with at least one digit after the point. -/
def positional (d : Numeral) : String :=
  let ds := Nat.toDigits 10 d.digits
  if 0 ≤ d.exponent then
    String.ofList ds ++ zeros d.exponent.toNat ++ ".0"
  else
    let places := (-d.exponent).toNat
    if places < ds.length then
      String.ofList (ds.take (ds.length - places)) ++ "."
        ++ String.ofList (ds.drop (ds.length - places))
    else
      "0." ++ zeros (places - ds.length) ++ String.ofList ds

/-- The power of ten of the first digit. -/
def magnitude (d : Numeral) : Int := (Nat.toDigits 10 d.digits).length - 1 + d.exponent

/-- Notation with an exponent: one digit, then the others after a point if there are any. -/
def scientific (s : Style) (d : Numeral) : String :=
  let ds := Nat.toDigits 10 d.digits
  let fraction := if ds.length ≤ 1 then "" else "." ++ String.ofList (ds.drop 1)
  let sign := if 0 ≤ d.magnitude then s.plus else "-"
  String.ofList (ds.take 1) ++ fraction ++ "e" ++ sign ++ digitsText d.magnitude.natAbs

/-- The text of a positive decimal. -/
def text (s : Style) (d : Numeral) : String :=
  if s.lowest ≤ d.magnitude ∧ d.magnitude < s.highest then d.positional else d.scientific s

end Numeral

/-- Whether the sign bit of `x` is set. -/
def isNegative (x : Float) : Bool := UInt64.size / 2 ≤ x.toBits.toNat

/-- The text of a finite double. -/
def Style.text (s : Style) (x : Float) : String :=
  let sign := if isNegative x then "-" else ""
  let b := Binary.ofBits x.toBits
  if b.significand = 0 then sign ++ "0.0" else sign ++ (b.shortest s.tie).text s

/-- Number literals of a source text are positional from `10 ^ -4` to below `10 ^ 16`, positive
exponents carry no sign, and of two equally near decimals the larger one is taken. -/
def literal : Style := ⟨-4, 16, "", .up⟩

/-- The literal of a double; `infinity` names the one that is larger than all others. -/
def literalText (infinity : String) (x : Float) : String :=
  if x.isNaN then "NaN"
  else if x.isInf then (if isNegative x then "-" else "") ++ infinity
  else literal.text x

end TailLoop.Decimal
