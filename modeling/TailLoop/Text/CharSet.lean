/-!
# Sets of characters

A `CharSet` is given by the code points at which membership changes: characters before the
first are outside, those from the first up to the second are inside, and so on. The sets of the
other modules follow version 17.0 of Unicode.
-/

namespace TailLoop.Text

/-- A set of characters, listed by the code points where membership flips. -/
structure CharSet where
  /-- The code points where membership flips, in ascending order. -/
  flips : List Nat

/-- Whether `c` belongs to the set: an odd number of flips lie at or below it. -/
def CharSet.contains (s : CharSet) (c : Char) : Bool :=
  (s.flips.takeWhile fun n => decide (n ≤ c.toNat)).length % 2 == 1

end TailLoop.Text
