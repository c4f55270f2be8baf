/-!
# Numbers of a layout

The engine adds, scales and compares numbers and asks of each result whether it has cancelled.
`Scalar` is exactly that vocabulary.  Doubles carry out every layout; they count a number as
cancelled below a fixed tolerance.  Exact rationals obey the same definitions with a zero
tolerance, so a statement about the method itself can be made where no rounding occurs.
-/

namespace LinearLayout

/-- The arithmetic that equations, rows and weights are written in. -/
class Scalar (K : Type) extends Zero K, One K, Add K, Mul K, Div K, Neg K, NatCast K, BEq K where
  /-- Strict order; a number that is no number is on neither side of it. -/
  less : K → K → Bool
  /-- A coefficient or constant that counts as cancelled. -/
  isNegligible : K → Bool
  /-- The smallest weight a preference may carry. -/
  leastWeight : K
  /-- The largest weight a preference may carry. -/
  greatestWeight : K

namespace Scalar

/-- Doubles smaller than this in magnitude count as cancelled. -/
def tolerance : Float :=
  1e-8

instance instFloat : Scalar Float where
  natCast := Float.ofNat
  less a b := decide (a < b)
  isNegligible a := decide (a.abs < tolerance)
  leastWeight := 1e-3
  greatestWeight := 1.7976931348623157e308

instance instRat : Scalar Rat where
  toZero := Zero.ofOfNat0
  toOne := One.ofOfNat1
  toAdd := Rat.instAdd
  toMul := Rat.instMul
  toDiv := Rat.instDiv
  toNeg := Rat.instNeg
  toNatCast := Rat.instNatCast
  toBEq := instBEqOfDecidableEq
  less a b := decide (a < b)
  isNegligible a := decide (a = 0)
  leastWeight := mkRat 1 1000
  greatestWeight := Rat.ofInt ((Nat.pow 2 53 - 1) * Nat.pow 2 971)

section Exact

variable (a b : Rat)

@[simp] theorem less_rat :
    less a b = true ↔ a < b := by
  simp [less]

@[simp] theorem isNegligible_rat :
    isNegligible a = true ↔ a = 0 := by
  simp [isNegligible]

end Exact

section Clamp

variable {K : Type} [Scalar K]

/--
The nearest weight in the allowed range.  What does not even equal itself has no nearest weight
and is given the least one.
-/
def clampWeight (w : K) : K :=
  if w == w then
    if less w leastWeight then leastWeight
    else if less greatestWeight w then greatestWeight
    else w
  else leastWeight

end Clamp

end Scalar
end LinearLayout
