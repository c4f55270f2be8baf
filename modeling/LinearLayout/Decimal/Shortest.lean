/-!
# The fewest digits that read back

A finite double stands for all reals that round to it.  Among the decimals in that interval
`Dyadic.shortest` takes one with the fewest digits, and of those the one closest to the double.
The search is the specification made into a loop: one grid of decimals after the other, coarsest
first, and on each grid only the two neighbours of the value, all in exact integer arithmetic.
-/

namespace LinearLayout
namespace Decimal

/-- A positive finite double `significand * 2 ^ exponent`. -/
structure Dyadic where
  significand : Nat
  exponent : Int
  /-- The next double below is only half as far away as the next one above. -/
  narrowBelow : Bool

/-- A decimal `coefficient * 10 ^ exponent`. -/
structure Digits where
  coefficient : Nat
  exponent : Int
deriving DecidableEq, Repr

/-- Which of two equally close decimals is taken. -/
inductive Tie where
  | toEven
  | upward

/-- A power of ten; a negative exponent counts as zero. -/
def tenTo (i : Int) : Nat :=
  Nat.pow 10 i.toNat

/-- A power of two; a negative exponent counts as zero. -/
def twoTo (j : Int) : Nat :=
  Nat.pow 2 j.toNat

/-- Compares `a * 10 ^ i` with `n * 2 ^ j`. -/
def compareScaled (a : Nat) (i : Int) (n : Nat) (j : Int) : Ordering :=
  compare (a * tenTo i * twoTo (-j)) (n * twoTo j * tenTo (-i))

namespace Digits

/-- Drops a final zero as long as there is one; zero itself keeps its single digit. -/
def stripZeros (d : Digits) : Digits :=
  if h : d.coefficient % 10 = 0 ∧ d.coefficient ≠ 0 then
    stripZeros ⟨d.coefficient / 10, d.exponent + 1⟩
  else d
termination_by d.coefficient
decreasing_by omega

end Digits

namespace Dyadic

/-- The double with these bits, its sign left out. -/
def ofBits (bits : UInt64) : Dyadic :=
  let raw := ((bits >>> 52) &&& 0x7FF).toNat
  let fraction := (bits &&& 0xFFFFFFFFFFFFF).toNat
  if raw = 0 then ⟨fraction, -1074, false⟩
  else ⟨twoTo 52 + fraction, (raw : Int) - 1075, decide (fraction = 0 ∧ 1 < raw)⟩

/--
A decimal reads back as the double if it lies between the midpoints to the two neighbouring
doubles; the midpoints themselves round to an even significand.
-/
def readsBack (x : Dyadic) (d : Digits) : Bool :=
  let lower := if x.narrowBelow then 4 * x.significand - 1 else 4 * x.significand - 2
  let upper := 4 * x.significand + 2
  let inclusive := x.significand % 2 == 0
  let below := compareScaled d.coefficient d.exponent lower (x.exponent - 2)
  let above := compareScaled d.coefficient d.exponent upper (x.exponent - 2)
  (below == .gt || (inclusive && below == .eq)) && (above == .lt || (inclusive && above == .eq))

/-- The least `k` with the double below `10 ^ k`, corrected from its binary logarithm. -/
def magnitude (x : Dyadic) : Int :=
  let estimate := ((x.significand.log2 : Int) + x.exponent) * 30103 / 100000
  let candidates := (List.range 3).map fun i : Nat => estimate + (i : Int)
  (candidates.find? fun k => compareScaled 1 k x.significand x.exponent == .gt).getD (estimate + 3)

/-- The largest multiple of `10 ^ g` that does not exceed the double. -/
def floorOn (x : Dyadic) (g : Int) : Nat :=
  (x.significand * twoTo x.exponent * tenTo (-g)) / (twoTo (-x.exponent) * tenTo g)

/-- Compares twice the double with the sum of its two neighbours on a grid. -/
def compareWithMiddle (x : Dyadic) (low : Nat) (g : Int) : Ordering :=
  compareScaled (2 * low + 1) g (2 * x.significand) x.exponent

/-- The closest decimal on a grid that reads back, if there is one. -/
def onGrid? (tie : Tie) (x : Dyadic) (g : Int) : Option Digits :=
  let low := x.floorOn g
  let down : Digits := ⟨low, g⟩
  let up : Digits := ⟨low + 1, g⟩
  match x.readsBack down, x.readsBack up with
  | false, false => none
  | true, false => some down
  | false, true => some up
  | true, true =>
    match x.compareWithMiddle low g, tie with
    | .gt, _ => some down
    | .lt, _ => some up
    | .eq, .upward => some up
    | .eq, .toEven => some (if low % 2 = 0 then down else up)

/-- The exact value as a decimal. -/
def exact (x : Dyadic) : Digits :=
  if x.exponent < 0 then ⟨x.significand * (tenTo (-x.exponent) / twoTo (-x.exponent)), x.exponent⟩
  else ⟨x.significand * twoTo x.exponent, 0⟩

/-- A decimal with the fewest digits that reads back; seventeen digits always suffice. -/
def shortest (tie : Tie) (x : Dyadic) : Digits :=
  let k := x.magnitude
  let found := (List.range 17).findSome? fun i : Nat => x.onGrid? tie (k - 1 - (i : Int))
  (found.getD x.exact).stripZeros

end Dyadic

end Decimal
end LinearLayout
