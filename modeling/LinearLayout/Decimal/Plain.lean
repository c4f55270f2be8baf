import LinearLayout.Decimal.Shortest

/-!
# Doubles as plain decimal text

Plain text never has an exponent: however large or small a double is, all its places are written
out.  A whole number has no point, and the sign of zero is kept.
-/

namespace LinearLayout
namespace Decimal

/-- The choices that plain text leaves open. -/
structure Style where
  /-- Which of two equally close decimals is written. -/
  tie : Tie
  /-- The text of a value that is no number, whatever its sign. -/
  notANumber : String
  /-- The text of positive infinity. -/
  infinity : String

/-- All places of a decimal, without an exponent. -/
def Digits.plain (d : Digits) : String :=
  let digits := Nat.toDigits 10 d.coefficient
  if 0 ≤ d.exponent then String.ofList (digits ++ List.replicate d.exponent.toNat '0')
  else
    let places := (-d.exponent).toNat
    let padded := List.replicate (places + 1 - digits.length) '0' ++ digits
    let whole := padded.length - places
    String.ofList (padded.take whole ++ '.' :: padded.drop whole)

/-- The text of the magnitude of a double. -/
def Style.magnitude (style : Style) (x : Float) : String :=
  if x.isInf then style.infinity
  else if x == 0 then "0"
  else ((Dyadic.ofBits x.toBits).shortest style.tie).plain

/-- The text of a double. -/
def Style.text (style : Style) (x : Float) : String :=
  if x.isNaN then style.notANumber
  else if x.toBits >>> 63 == 1 then "-" ++ style.magnitude x
  else style.magnitude x

end Decimal

/--
Numbers in equations, priorities and messages: of two equally close decimals the upper one is
written.
-/
def numberStyle : Decimal.Style :=
  ⟨.upward, "NaN", "inf"⟩

/-- The text of a number of a layout. -/
def numberText (x : Float) : String :=
  numberStyle.text x

end LinearLayout
