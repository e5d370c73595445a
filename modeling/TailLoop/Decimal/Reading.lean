/-!
# Reading numbers

The value of a decimal number text. Digits are gathered into a 64-bit significand as long as they
fit; integer digits beyond that count as powers of ten and fraction digits beyond it are ignored.
The significand is then scaled by one power of ten in double arithmetic.
-/

namespace TailLoop.Decimal

/-- A number text cut into its parts. -/
structure NumberText where
  /-- Whether it starts with a minus sign. -/
  negative : Bool
  /-- The digits before the point. -/
  whole : List Nat
  /-- The digits after the point, if there is one. -/
  fraction : Option (List Nat)
  /-- The sign of the exponent (`true` for minus) and its digits, if there is one. -/
  exponent : Option (Bool × List Nat)

/-- A number as read: an integer of at most 64 bits, or a double. -/
inductive Number where
  | int (value : Int)
  | float (value : Float)

/-- Appends digits to a 64-bit significand while they fit; also counts the digits taken. -/
def gather (significand : Nat) : List Nat → Nat × Nat
  | [] => (significand, 0)
  | d :: ds =>
    if significand * 10 + d < UInt64.size then
      let (s, taken) := gather (significand * 10 + d) ds
      (s, taken + 1)
    else (significand, 0)

/-- The number written by a list of digits. -/
def ofDigits (ds : List Nat) : Nat := ds.foldl (fun n d => n * 10 + d) 0

/-- The double nearest to `10 ^ n`, for `n` up to 308. -/
def power (n : Nat) : Float := Float.ofScientific 1 false n

/-- `f * 10 ^ e` in double arithmetic, `none` when it overflows. Small exponents are reached in
steps of `10 ^ 308`. -/
def scale : Nat → Float → Int → Option Float
  | 0, f, _ => some f
  | steps + 1, f, e =>
    if e.natAbs ≤ 308 then
      if 0 ≤ e then
        let x := f * power e.natAbs
        if x.isInf then none else some x
      else some (f / power e.natAbs)
    else if f == 0.0 then some f
    else if 0 ≤ e then none
    else scale steps (f / power 308) (e + 308)

/-- Gives a magnitude its sign. -/
def signed (negative : Bool) (x : Float) : Float := if negative then -x else x

/-- The value of a number text, `none` when it is too large for a double. A text without point
and exponent is an integer if it fits 64 bits, except for minus zero. -/
def NumberText.value? (t : NumberText) : Option Number :=
  let (w, wTaken) := gather 0 t.whole
  let dropped := t.whole.length - wTaken
  match t.fraction, t.exponent with
  | none, none =>
    if dropped = 0 then
      if !t.negative then some (.int w)
      else if 0 < w ∧ w ≤ Int64.minValue.toInt.natAbs then some (.int (-w))
      else some (.float (-(UInt64.ofNat w).toFloat))
    else (scale 4 (UInt64.ofNat w).toFloat dropped).map fun x => .float (signed t.negative x)
  | fraction, exponent =>
    let (s, fTaken) := gather w (fraction.getD [])
    let start : Int := (dropped : Int) - fTaken
    let (below, power) := match exponent with
      | none => (false, 0)
      | some (below, ds) => (below, ofDigits ds)
    if Int32.maxValue.toInt.natAbs < power then
      if s ≠ 0 ∧ !below then none else some (.float (signed t.negative 0.0))
    else
      (scale 4 (UInt64.ofNat s).toFloat (if below then start - power else start + power)).map
        fun x => .float (signed t.negative x)

end TailLoop.Decimal
