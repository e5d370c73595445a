import Mathlib
import TailLoop.Json.Decoder

/-!
# Finite doubles

An integer of at most 64 bits is far below the largest double, so the double nearest to it is
finite, whatever the rounding does to its last bits. The bounds are those of the packed form: an
exponent of at most 971 for a mantissa of 53 bits.

* `Double.isFinite_floatOfInt`: an integer that stands for a double stands for a finite one.
-/

namespace TailLoop.Double

open Float.Model Float.Model.UnpackedFloat

/-- `b` is a finite value unless it has the largest exponent. -/
theorem isFinite_unpack (b : BitVec Format.binary64.numBits) :
    (UnpackedFloat.unpack Format.binary64 b).isFinite = true ↔ unpackExponent b ≠ -1#_ := by
  simp only [UnpackedFloat.unpack]
  split
  · split <;> simp_all [UnpackedFloat.isFinite]
  · split
    · split <;> simp_all [UnpackedFloat.isFinite]
    · simp_all [UnpackedFloat.isFinite]

/-- `f` is finite, and its exponent is one that a double can have. -/
def Fits (f : UnpackedFloat) : Prop :=
  match f with
  | .zero _ => True
  | .finite _ _ e _ => e ≤ 971
  | _ => False

/-- A value that `Fits` is finite once `pack` has rounded it. -/
theorem isFinite_pack {f : UnpackedFloat} (hf : Fits f) : (Float.Model.pack f).isFinite = true := by
  rw [Float.Model.isFinite, Float.Model.unpack, isFinite_unpack]
  simp only [Float.Model.pack]
  cases f with
  | infinity => exact hf.elim
  | notANumber => exact hf.elim
  | zero s => simp [UnpackedFloat.pack, packedZero]
  | finite s m e hm =>
    have he : e ≤ 971 := hf
    simp only [UnpackedFloat.pack]
    split
    case isTrue h => simp only [Format.exponentBias] at h; omega
    case isFalse h =>
      split
      · simp only [unpackExponent_packComponents, ne_eq, ← BitVec.toNat_inj, BitVec.toNat_ofNat]
        simp only [Format.exponentBias] at h ⊢
        simp
        omega
      · simp

/-- What `unpack` gives for a finite value `Fits`. -/
theorem fits_unpack {b : BitVec Format.binary64.numBits}
    (hb : (UnpackedFloat.unpack Format.binary64 b).isFinite = true) :
    Fits (UnpackedFloat.unpack Format.binary64 b) := by
  have hne := (isFinite_unpack b).mp hb
  have hlt : (unpackExponent b).toNat < 2048 := (unpackExponent b).isLt
  have hbound : (unpackExponent b).toNat ≠ 2047 := fun h => hne (by
    rw [← BitVec.toNat_inj, h]
    rfl)
  simp only [UnpackedFloat.unpack, if_neg hne]
  split
  case isTrue hzero =>
    split
    · trivial
    · simp only [Fits, hzero]
      decide
  case isFalse =>
    simp only [Fits, Format.exponentBias]
    omega

/-- `-x` is finite if `x` is. -/
theorem isFinite_neg {x : Float} (hx : x.isFinite = true) : (-x).isFinite = true := by
  have h := fits_unpack hx
  refine isFinite_pack (f := x.toModel.unpack.neg) ?_
  unfold Float.Model.unpack at *
  cases hu : UnpackedFloat.unpack Format.binary64 x.toModel.toBits.toBitVec <;>
    simp_all [UnpackedFloat.neg, Fits]

/-! ## Integers as doubles -/

/-- Shifting `em` to the right makes its mantissa no larger. -/
theorem mantissa_shiftRight_le (em : ExtendedMantissa) (n : Nat) :
    (em >>> n).mantissa ≤ em.mantissa := by
  change (n.repeat ExtendedMantissa.shiftRightOne em).mantissa ≤ em.mantissa
  induction n with
  | zero => exact Nat.le_refl _
  | succ n ih => exact Nat.le_trans (Nat.div_le_self _ 2) ih

/-- `roundedMantissa` is at most one larger than the mantissa. -/
theorem roundedMantissa_le (em : ExtendedMantissa) : em.roundedMantissa ≤ em.mantissa + 1 := by
  simp only [ExtendedMantissa.roundedMantissa, Accuracy.roundToNearestEven]
  split <;> omega

/-- Shifting a mantissa of at most `k + 1` bits to the exponent it has as a double makes it no
larger, and the exponent no larger than needed. -/
theorem shiftToTargetExponent_le {m k : Nat} (hm : m < 2 ^ (k + 1)) (e : Int)
    (accuracy : Accuracy) :
    (shiftToTargetExponent Format.binary64 m e accuracy).1.mantissa ≤ m ∧
      (shiftToTargetExponent Format.binary64 m e accuracy).2 ≤
        max e (max (k + e - 52) (-1074)) := by
  have hlog : m.log2 ≤ k := by
    by_cases hzero : m = 0
    · simp [hzero]
    · exact Nat.le_of_lt_succ ((Nat.log2_lt hzero).mpr hm)
  have hstart : (ExtendedMantissa.ofMantissaAndAccuracy m accuracy).mantissa = m := by
    unfold ExtendedMantissa.ofMantissaAndAccuracy
    split <;> rfl
  constructor
  · simpa [shiftToTargetExponent, shiftToExponent, hstart] using
      mantissa_shiftRight_le (.ofMantissaAndAccuracy m accuracy) _
  · simp only [shiftToTargetExponent, shiftToExponent, Format.targetExponent, totalExponent,
      Format.mantissaBits, Format.minExponent]
    omega

/-- `roundWithAccuracy` of a mantissa `m` of at most 117 bits with an exponent `e` that is not
positive `Fits`. -/
theorem fits_roundWithAccuracy {s : Sign} {m : Nat} {e : Int} {accuracy : Accuracy}
    (hm : m < 2 ^ 117) (he : e ≤ 0) :
    Fits (roundWithAccuracy Format.binary64 s m e accuracy) := by
  obtain ⟨hmantissa, hexp⟩ := shiftToTargetExponent_le (k := 116) hm e accuracy
  have hrounded := roundedMantissa_le (shiftToTargetExponent Format.binary64 m e accuracy).1
  -- the second shift undoes an overflow of the rounding
  have hlast := (shiftToTargetExponent_le (k := 117) (Nat.lt_of_le_of_lt hrounded (by omega))
    (shiftToTargetExponent Format.binary64 m e accuracy).2 .exact).2
  simp only [roundWithAccuracy]
  split
  · trivial
  · simp only [Fits]
    omega

/-- `n.toFloat` is finite. -/
theorem isFinite_ofUInt64 (n : UInt64) : n.toFloat.isFinite = true := by
  refine isFinite_pack (f := UnpackedFloat.ofUInt64 Format.binary64 n) ?_
  have hn := n.toNat_lt
  simp only [UnpackedFloat.ofUInt64, UnpackedFloat.ofNat, UnpackedFloat.ofInt,
    UnpackedFloat.normalize]
  split
  case h_1 h => have := Int.compare_eq_lt.mp h; omega
  · trivial
  · simp only [UnpackedFloat.round, decreaseExponent, Int.toNat_natCast]
    apply fits_roundWithAccuracy
    · rw [Nat.shiftLeft_eq]
      have hshift : (0 - Format.binary64.targetExponent (totalExponent n.toNat 0)).toNat ≤ 52 := by
        simp only [Format.targetExponent, totalExponent, Format.mantissaBits]
        omega
      calc n.toNat * 2 ^ _ < 2 ^ 64 * 2 ^ 52 := Nat.mul_lt_mul_of_lt_of_le hn
            (Nat.pow_le_pow_right (by decide) hshift) (by decide)
        _ < 2 ^ 117 := by decide
    · omega

/-- `floatOfInt i`, the double nearest to `i`, is finite. -/
theorem isFinite_floatOfInt (i : Int) : (Decoder.floatOfInt i).isFinite = true := by
  unfold Decoder.floatOfInt
  split
  · exact isFinite_ofUInt64 _
  · exact isFinite_neg (isFinite_ofUInt64 _)

end TailLoop.Double
