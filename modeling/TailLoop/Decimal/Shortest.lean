/-!
# Shortest decimals

The shortest decimal of a positive double is the one with the fewest digits among those that
round back to it, and of these the nearest. All comparisons are made in exact integer arithmetic
on the double's significand and exponent.
-/

namespace TailLoop.Decimal

/-- The decimal number `digits * 10 ^ exponent`. -/
structure Numeral where
  /-- The digits, as a number. -/
  digits : Nat
  /-- The power of ten of the last digit. -/
  exponent : Int

/-- Which of two equally near decimals is taken. -/
inductive Tie where
  /-- The one with an even last digit. -/
  | even
  /-- The larger one. -/
  | up

/-- A positive double `significand * 2 ^ exponent`, with the reals that round to it: all between
`4 * significand - below` and `4 * significand + 2` quarters of `2 ^ exponent`. -/
structure Binary where
  /-- The significand. -/
  significand : Nat
  /-- The power of two of the last bit. -/
  exponent : Int
  /-- Quarters of a unit down to the lower end of the rounding interval. -/
  below : Nat

/-- The bit in front of the 52 bits of a fraction, `2 ^ 52`, which normal doubles have and do not
store. -/
def Binary.leadingBit : Nat := 4503599627370496

/-- The magnitude of a finite double from its bits. -/
def Binary.ofBits (bits : UInt64) : Binary :=
  let field : Nat := bits.toNat / leadingBit % 2048
  let fraction : Nat := bits.toNat % leadingBit
  if field = 0 then ⟨fraction, -1074, 2⟩
  else ⟨leadingBit + fraction, (field : Int) - 1075, if fraction = 0 ∧ 1 < field then 1 else 2⟩

namespace Binary

/-- Numerator of a quarter unit of `b`, measured in units of `10 ^ k`. -/
def numerator (b : Binary) (k : Int) : Nat :=
  Nat.pow 2 (b.exponent - 2).toNat * Nat.pow 10 (-k).toNat

/-- Denominator of a quarter unit of `b`, measured in units of `10 ^ k`. -/
def denominator (b : Binary) (k : Int) : Nat :=
  Nat.pow 2 (2 - b.exponent).toNat * Nat.pow 10 k.toNat

/-- Whether `d * 10 ^ k` rounds to `b`; the ends of the interval do when the significand is
even. -/
def rounds (b : Binary) (k : Int) (d : Nat) : Bool :=
  let low := (4 * b.significand - b.below) * b.numerator k
  let high := (4 * b.significand + 2) * b.numerator k
  let x := d * b.denominator k
  if b.significand % 2 = 0 then low ≤ x && x ≤ high else low < x && x < high

/-- The decimal of exponent `k` that rounds to `b`, the nearest if both neighbours do. -/
def onGrid? (b : Binary) (tie : Tie) (k : Int) : Option Numeral :=
  let x := 4 * b.significand * b.numerator k
  let unit := b.denominator k
  let d := x / unit
  let nearer := match compare (2 * (x - d * unit)) unit, tie with
    | .lt, _ => d
    | .gt, _ => d + 1
    | .eq, .even => if d % 2 = 0 then d else d + 1
    | .eq, .up => d + 1
  let farther := if nearer = d then d + 1 else d
  if nearer ≠ 0 && b.rounds k nearer then some ⟨nearer, k⟩
  else if farther ≠ 0 && b.rounds k farther then some ⟨farther, k⟩
  else none

/-- The first hit on the grids of exponent `k`, `k - 1`, and so on. -/
def search (b : Binary) (tie : Tie) : Nat → Int → Numeral
  | 0, k => ⟨4 * b.significand * b.numerator k / b.denominator k, k⟩
  | steps + 1, k => (b.onGrid? tie k).getD (search b tie steps (k - 1))

/-- The shortest decimal of `b`. The search starts above the value's own magnitude, and seventeen
digits always suffice. -/
def shortest (b : Binary) (tie : Tie) : Numeral :=
  let magnitude := (Nat.log2 b.significand + b.exponent + 1) * 30103 / 100000
  b.search tie 22 (magnitude + 2)

end Binary

end TailLoop.Decimal
