import Mathlib
import LinearLayout.Scalar

/-!
# Doubles

Two facts about rounding are needed of doubles.  A change of sign is exact, also where it is
written as a product with minus one, so it does not decide whether a number counts as cancelled.
And a weight that comes out of a clamp is a positive number above the tolerance, so it never counts
as cancelled itself, while adding its negation always cancels it.

Both are read off the parts of a double: its sign, its mantissa and its exponent.
-/

namespace LinearLayout
namespace Double

open Float.Model (UnpackedFloat Format totalExponent)
open Float.Model.UnpackedFloat

/-- What a double stands for: a sign, a mantissa and an exponent, or no finite number. -/
def parts (x : Float) : UnpackedFloat :=
  unpack .binary64 x.toModel.toBits.toBitVec

/-- The same magnitude with a given sign. -/
def withSign (sign : Sign) : UnpackedFloat → UnpackedFloat
  | .infinity _ => .infinity sign
  | .notANumber => .notANumber
  | .zero _ => .zero sign
  | .finite _ m e hm => .finite sign m e hm

/-- What is left of the parts of a number when they are stored in a double. -/
def stored (u : UnpackedFloat) : UnpackedFloat :=
  unpack .binary64 (pack .binary64 u)

section Signs

variable (b : BitVec Format.binary64.numBits)

theorem unpack_of_isNaNBits
    (h : isNaNBits b = true) :
    unpack .binary64 b = .notANumber := by
  obtain ⟨hexponent, hmantissa⟩ := of_decide_eq_true h
  simp only [unpack, hexponent, hmantissa, if_true, if_false]

theorem stored_unpack :
    stored (unpack .binary64 b) = unpack .binary64 b := by
  rw [stored, pack_unpack b]
  split
  · next h => rw [unpack_packedNaN, unpack_of_isNaNBits b h]
  · rfl

/-- Another sign bit is another sign and nothing else. -/
theorem unpack_packComponents
    (sign : Sign) :
    unpack .binary64 (packComponents .binary64 sign (unpackExponent b) (unpackMantissa b)) =
      withSign sign (unpack .binary64 b) := by
  simp only [unpack, unpackExponent_packComponents, unpackMantissa_packComponents,
    unpackSign_packComponents, Sign.ofBitVec_toBitVec]
  split
  · split <;> rfl
  · split
    · split <;> rfl
    · rfl

/-- The magnitude of a double fits into a double with either sign. -/
theorem stored_withSign
    (sign : Sign) :
    stored (withSign sign (unpack .binary64 b)) = withSign sign (unpack .binary64 b) := by
  rw [← unpack_packComponents, stored_unpack]

theorem exists_neg_eq_withSign
    (u : UnpackedFloat) :
    ∃ sign, u.neg = withSign sign u := by
  cases u with
  | infinity sign => exact ⟨-sign, rfl⟩
  | notANumber => exact ⟨.positive, rfl⟩
  | zero sign => exact ⟨-sign, rfl⟩
  | finite sign m e hm => exact ⟨-sign, rfl⟩

theorem abs_eq_withSign
    (u : UnpackedFloat) :
    u.abs = withSign .positive u := by
  cases u <;> rfl

@[simp] theorem parts_neg
    (x : Float) :
    parts (-x) = (parts x).neg := by
  obtain ⟨sign, hsign⟩ := exists_neg_eq_withSign (parts x)
  change stored (parts x).neg = (parts x).neg
  rw [hsign]
  exact stored_withSign _ sign

@[simp] theorem parts_abs
    (x : Float) :
    parts x.abs = (parts x).abs := by
  change stored (parts x).abs = (parts x).abs
  rw [abs_eq_withSign]
  exact stored_withSign _ _

@[simp] theorem neg_abs
    (u : UnpackedFloat) :
    u.neg.abs = u.abs := by
  cases u <;> rfl

end Signs

section Canonical

variable {m : Nat} {e : Int}

theorem targetExponent_binary64
    (t : Int) :
    Format.binary64.targetExponent t = max (t - 53) (-1074) :=
  rfl

/-- A mantissa of full length may have any exponent from the least one on, a shorter one only it. -/
theorem targetExponent_eq
    (h : (2 ^ 52 ≤ m ∧ m < 2 ^ 53 ∧ -1074 ≤ e) ∨ (0 < m ∧ m < 2 ^ 52 ∧ e = -1074)) :
    Format.binary64.targetExponent (totalExponent m e) = e := by
  rw [targetExponent_binary64, totalExponent]
  rcases h with ⟨hle, hlt, he⟩ | ⟨hpos, hlt, rfl⟩
  · have hlog : m.log2 = 52 := (Nat.log2_eq_iff (by omega)).2 ⟨hle, hlt⟩
    rw [hlog]
    omega
  · have hlog : m.log2 < 52 := (Nat.log2_lt (by omega)).2 hlt
    omega

/-- The exponent of a double is the one that the format asks for. -/
theorem targetExponent_unpack
    {b : BitVec Format.binary64.numBits} {sign : Sign} {hm : 0 < m}
    (h : unpack .binary64 b = .finite sign m e hm) :
    Format.binary64.targetExponent (totalExponent m e) = e := by
  have hmantissa : (unpackMantissa b).toNat < 2 ^ 52 := (unpackMantissa b).isLt
  have hbias : (Format.binary64.exponentBias : Int) +
      Format.binary64.mantissaBitsWithoutImplicit = 1075 := rfl
  simp only [unpack, hbias] at h
  split at h
  · split at h <;> cases h
  · split at h
    · next hexponent =>
        split at h
        · cases h
        · rw [hexponent] at h
          cases h
          exact targetExponent_eq (Or.inr ⟨hm, hmantissa, rfl⟩)
    · next hexponent =>
        have hpositive : 0 < (unpackExponent b).toNat :=
          Nat.pos_of_ne_zero fun hzero => hexponent (BitVec.eq_of_toNat_eq hzero)
        have himplicit : (1#1 ++ unpackMantissa b).toNat = 2 ^ 52 + (unpackMantissa b).toNat := by
          rw [BitVec.toNat_append, ← Nat.shiftLeft_add_eq_or_of_lt hmantissa]
          rfl
        cases h
        refine targetExponent_eq (Or.inl ⟨?_, ?_, ?_⟩)
        · omega
        · omega
        · omega

theorem repeat_shiftRightOne
    (n m : Nat) :
    n.repeat ExtendedMantissa.shiftRightOne ⟨m * 2 ^ n, false, false⟩ = ⟨m, false, false⟩ := by
  induction n generalizing m with
  | zero =>
      simp [Nat.repeat]
  | succ n ih =>
      have hshift : m * 2 ^ (n + 1) = m * 2 * 2 ^ n := by
        rw [Nat.pow_succ, Nat.mul_comm (2 ^ n), Nat.mul_assoc]
      rw [hshift, Nat.repeat, ih]
      simp [ExtendedMantissa.shiftRightOne]

/-- Zeros at the end of a mantissa are shifted out again without a rounding. -/
theorem shiftToTargetExponent_eq
    (hm : 0 < m)
    (h : Format.binary64.targetExponent (totalExponent m e) = e)
    (n : Nat) :
    shiftToTargetExponent .binary64 (m * 2 ^ n) (e - n) .exact = (⟨m, false, false⟩, e) := by
  have hlog : (m * 2 ^ n).log2 = m.log2 + n := by
    refine (Nat.log2_eq_iff (Nat.mul_pos hm (Nat.two_pow_pos n)).ne').2 ⟨?_, ?_⟩
    · rw [Nat.pow_add]
      exact Nat.mul_le_mul_right _ (Nat.log2_self_le hm.ne')
    · rw [Nat.add_right_comm, Nat.pow_add]
      exact Nat.mul_lt_mul_of_pos_right Nat.lt_log2_self (Nat.two_pow_pos n)
  have htotal : totalExponent (m * 2 ^ n) (e - n) = totalExponent m e := by
    rw [totalExponent, totalExponent, hlog]
    omega
  have hamount : (e - (e - (n : Int))).toNat = n := by omega
  simp only [shiftToTargetExponent, shiftToExponent, htotal, h, hamount, Int.sub_add_cancel]
  exact Prod.ext (repeat_shiftRightOne n m) rfl

theorem roundWithAccuracy_eq
    (sign : Sign) (hm : 0 < m)
    (h : Format.binary64.targetExponent (totalExponent m e) = e)
    (n : Nat) :
    roundWithAccuracy .binary64 sign (m * 2 ^ n) (e - n) .exact = .finite sign m e hm := by
  have hrounded : (⟨m, false, false⟩ : ExtendedMantissa).roundedMantissa = m := rfl
  have hagain : shiftToTargetExponent .binary64 m e .exact = (⟨m, false, false⟩, e) := by
    simpa using shiftToTargetExponent_eq hm h 0
  simp only [roundWithAccuracy, shiftToTargetExponent_eq hm h, hrounded, hagain, dif_neg hm.ne']

theorem parts_neg_one :
    parts (-1) = .finite .negative (2 ^ 52) (-52) (by decide) :=
  rfl

/-- A product with minus one is the number with the other sign. -/
theorem mul_neg_one_eq
    (x : Float) :
    x * -1 = -x := by
  have hproduct : mul .binary64 (parts x) (parts (-1)) = (parts x).neg := by
    rw [parts_neg_one]
    cases hx : parts x with
    | infinity sign => cases sign <;> rfl
    | notANumber => rfl
    | zero sign => cases sign <;> rfl
    | finite sign m e hm =>
        have hsign : sign * .negative = -sign := by cases sign <;> rfl
        rw [mul, neg, hsign]
        exact roundWithAccuracy_eq _ hm (targetExponent_unpack hx) 52
  exact congrArg (fun u => Float.ofModel (.pack u)) hproduct

end Canonical

section Tolerance

variable {x y : Float}

theorem less_iff :
    Scalar.less x y = true ↔ (parts x).compare (parts y) = some .lt := by
  change decide (decide (((parts x).compare (parts y) == some .lt) = true) = true) = true ↔ _
  simp

theorem isNegligible_iff :
    Scalar.isNegligible x = true ↔ (parts x).abs.compare (parts Scalar.tolerance) = some .lt := by
  rw [← parts_abs]
  exact less_iff

/-- The sign of a number does not decide whether it counts as cancelled. -/
@[simp] theorem isNegligible_mul_neg_one
    (x : Float) :
    Scalar.isNegligible (x * -1) = Scalar.isNegligible x := by
  rw [Bool.eq_iff_iff, isNegligible_iff, isNegligible_iff, mul_neg_one_eq, parts_neg, neg_abs]

end Tolerance

section Weights

variable (w : Float)

theorem parts_tolerance :
    ∃ hm, parts Scalar.tolerance = .finite .positive 6044629098073146 (-79) hm :=
  ⟨by decide, rfl⟩

theorem parts_leastWeight :
    ∃ hm, parts Scalar.leastWeight = .finite .positive 4611686018427388 (-62) hm :=
  ⟨by decide, rfl⟩

theorem isFinite_greatestWeight :
    (parts Scalar.greatestWeight).isFinite = true := by
  decide +kernel

/-- The outcome of a clamp equals itself and lies between the two bounds. -/
theorem clampWeight_mem :
    (Scalar.clampWeight w == Scalar.clampWeight w) = true ∧
      Scalar.less (Scalar.clampWeight w) Scalar.leastWeight = false ∧
      Scalar.less Scalar.greatestWeight (Scalar.clampWeight w) = false := by
  unfold Scalar.clampWeight
  split
  · next hself =>
      split
      · decide +kernel
      · next hleast =>
          split
          · decide +kernel
          · next hgreatest => exact ⟨hself, by simpa using hleast, by simpa using hgreatest⟩
  · decide +kernel

/-- A weight is a positive finite number, and its exponent is not less than that of the least one. -/
theorem exists_parts_clampWeight :
    ∃ m e hm, parts (Scalar.clampWeight w) = .finite .positive m e hm ∧ -62 ≤ e := by
  obtain ⟨hself, hleast, hgreatest⟩ := clampWeight_mem w
  generalize Scalar.clampWeight w = c at hself hleast hgreatest
  have hself' : (parts c).compare (parts c) = some .eq := by
    have hbeq : ((parts c).compare (parts c) == some .eq) = true := hself
    simpa using hbeq
  obtain ⟨_, hl⟩ := parts_leastWeight
  have hfinite := isFinite_greatestWeight
  rw [Bool.eq_false_iff, Ne, less_iff, hl] at hleast
  rw [Bool.eq_false_iff, Ne, less_iff] at hgreatest
  cases hc : parts c with
  | infinity sign =>
      cases sign with
      | negative => simp [hc, UnpackedFloat.compare] at hleast
      | positive =>
          generalize parts Scalar.greatestWeight = g at hgreatest hfinite
          cases g <;> simp_all [UnpackedFloat.compare, isFinite]
  | notANumber =>
      simp [hc, UnpackedFloat.compare] at hself'
  | zero sign =>
      simp [hc, UnpackedFloat.compare] at hleast
  | finite sign m e hm =>
      cases sign with
      | negative => simp [hc, UnpackedFloat.compare] at hleast
      | positive =>
          refine ⟨m, e, hm, rfl, ?_⟩
          by_contra hlt
          have horder : compare e (-62) = .lt := compare_lt_iff_lt.2 (by omega)
          simp [hc, UnpackedFloat.compare, horder] at hleast

theorem isNegligible_clampWeight :
    Scalar.isNegligible (Scalar.clampWeight w) = false := by
  obtain ⟨m, e, hm, hc, he⟩ := exists_parts_clampWeight w
  obtain ⟨_, ht⟩ := parts_tolerance
  have horder : compare e (-79) = .gt := compare_gt_iff_gt.2 (by omega)
  rw [Bool.eq_false_iff, Ne, isNegligible_iff, hc, ht]
  simp [UnpackedFloat.abs, UnpackedFloat.compare, horder]

theorem less_clampWeight_zero :
    Scalar.less (Scalar.clampWeight w) 0 = false := by
  obtain ⟨m, e, hm, hc, _⟩ := exists_parts_clampWeight w
  have hzero : parts 0 = .zero .positive := rfl
  rw [Bool.eq_false_iff, Ne, less_iff, hc, hzero]
  simp [UnpackedFloat.compare]

/-- Opposite finite numbers add up to zero exactly. -/
theorem clampWeight_add_neg :
    Scalar.clampWeight w + -Scalar.clampWeight w = 0 := by
  obtain ⟨m, e, hm, hc, _⟩ := exists_parts_clampWeight w
  have hsum : add .binary64 (parts (Scalar.clampWeight w)) (parts (-Scalar.clampWeight w)) =
      .zero .positive := by
    rw [parts_neg, hc]
    simp only [neg, add]
    have hcancel : Sign.positive.apply ↑(decreaseExponent m e (min e e)).1 +
        (-Sign.positive).apply ↑(decreaseExponent m e (min e e)).1 = 0 :=
      Int.add_right_neg _
    rw [hcancel]
    rfl
  exact congrArg (fun u => Float.ofModel (.pack u)) hsum

end Weights

end Double
end LinearLayout
