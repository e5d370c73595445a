import TailLoop.Decimal.Style

/-!
# Fresh names

A fresh name is the first of `x`, `x$1`, `x$2`, … that is not taken. Of more candidates than there
are taken names one is free, so the search is bounded.
-/

namespace TailLoop.Lower

/-- The candidate of number `n` for a name. -/
def candidate (base : String) (n : Nat) : String :=
  if n = 0 then base else base ++ "$" ++ Decimal.digitsText n

/-- The number of the first free candidate from `n` on, looking at no more than `steps` taken
ones. -/
def firstFree (taken : String → Bool) (base : String) : Nat → Nat → Nat
  | 0, n => n
  | steps + 1, n =>
    if taken (candidate base n) then firstFree taken base steps (n + 1) else n

end TailLoop.Lower
