import LinearLayout.Toml.Text

/-!
# Numbers and dates

Integers fit into 64 bits with a sign.  A decimal number becomes the nearest double.  One above all
doubles is refused, and one below all of them becomes the negative infinity.  Dates and times are
recognised, and their content is dropped.
-/

namespace LinearLayout
namespace Toml

/-- The double nearest to `m * 10 ^ e`, by magnitude alone where it is out of range. -/
def nearestDouble (m : Nat) (e : Int) : Float :=
  let magnitude := ((Nat.toDigits 10 m).length : Int) + e
  if m = 0 ∨ magnitude < -400 then 0
  else if 400 < magnitude then 1 / 0
  else Float.ofScientific m (e < 0) e.natAbs

/-- True of the days that a month has. -/
def isDate (year month day : Nat) : Bool :=
  let leap := year % 4 == 0 && (year % 100 != 0 || year % 400 == 0)
  let days :=
    if month = 2 then (if leap then 29 else 28)
    else if month = 4 ∨ month = 6 ∨ month = 9 ∨ month = 11 then 30
    else 31
  1 ≤ month && month ≤ 12 && 1 ≤ day && day ≤ days

namespace Reader

/-- Digits of a base; a single underscore may stand between two of them. -/
def digits (base : Nat) : Reader (List Char) := do
  let first ← digit base
  let rest ← many (optional (char '_') *> digit base)
  return first :: rest

/-- A sign; true if it is a minus. -/
def sign : Reader Bool := do
  match ← optional (satisfy fun c => c == '+' || c == '-') with
  | some c => return c == '-'
  | none => return false

/-- Decimal digits without a superfluous zero in front. -/
def wholePart : Reader (List Char) := fun s =>
  match s with
  | '0' :: rest => some (['0'], rest)
  | _ => digits 10 s

/-- An integer that fits into 64 bits. -/
def fitting (n : Int) : Reader Int :=
  if -9223372036854775808 ≤ n ∧ n ≤ 9223372036854775807 then pure n else failure

/-- An integer in base sixteen, eight or two, after its mark. -/
def based (mark : String) (base : Nat) : Reader Int := do
  literal mark
  let ds ← digits base
  fitting (ofDigits base ds)

/-- An integer. -/
def integer : Reader Int :=
  based "0x" 16 <|> based "0o" 8 <|> based "0b" 2 <|> do
    let negative ← sign
    let n := ofDigits 10 (← wholePart)
    fitting (if negative then -(n : Int) else n)

/-- The digits after a point. -/
def fraction : Reader (List Char) :=
  char '.' *> digits 10

/-- A power of ten. -/
def exponent : Reader Int := do
  let _ ← satisfy fun c => c == 'e' || c == 'E'
  let negative ← sign
  let n := ofDigits 10 (← digits 10)
  return if negative then -(n : Int) else n

/-- A decimal number with a point, an exponent or both. -/
def decimal : Reader Float := do
  let negative ← sign
  let whole ← wholePart
  let places ← optional fraction
  let power ← optional exponent
  if places.isNone && power.isNone then failure
  let after := places.getD []
  let x := nearestDouble (ofDigits 10 (whole ++ after)) (power.getD 0 - (after.length : Int))
  if negative then return -x
  if x.isInf then failure
  return x

/-- An infinity or what is no number. -/
def special : Reader Float := do
  let negative ← sign
  let x ← (literal "inf" *> pure (1 / 0)) <|> (literal "nan" *> pure (0 / 0))
  return if negative then -x else x

/-- A number of exactly so many digits, within a range. -/
def field (width low high : Nat) : Reader Nat := do
  let n := ofDigits 10 (← times (digit 10) width)
  if low ≤ n ∧ n ≤ high then return n else failure

/-- A date. -/
def date : Reader Unit := do
  let year ← field 4 0 9999
  char '-'
  let month ← field 2 1 12
  char '-'
  let day ← field 2 1 31
  if isDate year month day then return () else failure

/-- A time of day. -/
def time : Reader Unit := do
  let _ ← field 2 0 23
  char ':'
  let _ ← field 2 0 59
  char ':'
  let _ ← field 2 0 60
  let _ ← optional (char '.' *> digit 10 *> takeWhile Char.isDigit)

/-- A distance from universal time. -/
def offset : Reader Unit :=
  char 'Z' <|> char 'z' <|> do
    let _ ← satisfy fun c => c == '+' || c == '-'
    let _ ← field 2 0 23
    char ':'
    let _ ← field 2 0 59

/-- A date, a time, or both. -/
def moment : Reader Unit :=
  (do
    date
    let _ ← optional do
      let _ ← satisfy fun c => c == 'T' || c == 't' || c == ' '
      time
      optional offset) <|> time

end Reader
end Toml
end LinearLayout
