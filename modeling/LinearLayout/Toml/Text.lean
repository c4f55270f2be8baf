import LinearLayout.Toml.Reader

/-!
# Strings and keys

A string is basic, with escapes, or literal, without; either kind may span several lines.  A key
is a string of one line or a bare word, and several keys joined by dots form a path.
-/

namespace LinearLayout
namespace Toml

/-- The mark around basic strings. -/
def quoteMark : Char :=
  '\x22'

/-- The mark around literal strings. -/
def apostrophe : Char :=
  '\x27'

/-- The mark before an escape. -/
def escapeMark : Char :=
  '\x5c'

/-- True of the characters that stand for themselves in a basic string. -/
def isBasicChar (c : Char) : Bool :=
  isCommentChar c && c != quoteMark && c != escapeMark

/-- True of the characters that stand for themselves in a literal string. -/
def isLiteralChar (c : Char) : Bool :=
  isCommentChar c && c != apostrophe

/-- True of the characters of bare keys. -/
def isBareChar (c : Char) : Bool :=
  c.isAlphanum || c == '_' || c == '-'

/-- The value of a digit in a base up to sixteen. -/
def digitValue? (base : Nat) (c : Char) : Option Nat :=
  let n :=
    if c.isDigit then some (c.toNat - 48)
    else if 'a' ≤ c ∧ c ≤ 'f' then some (c.toNat - 87)
    else if 'A' ≤ c ∧ c ≤ 'F' then some (c.toNat - 55)
    else none
  n.filter (· < base)

/-- The number that digits write in a base. -/
def ofDigits (base : Nat) (digits : List Char) : Nat :=
  digits.foldl (fun n c => n * base + (digitValue? base c).getD 0) 0

namespace Reader

/-- A digit of a base. -/
def digit (base : Nat) : Reader Char :=
  satisfy fun c => (digitValue? base c).isSome

/-- A character given by a fixed number of hexadecimal digits. -/
def codePoint (digits : Nat) : Reader Char := do
  let n := ofDigits 16 (← times (digit 16) digits)
  if n.isValidChar then return Char.ofNat n else failure

/-- The character that an escape stands for, after its mark. -/
def escaped : Reader Char := do
  match ← satisfy fun _ => true with
  | 'b' => return '\x08'
  | 't' => return '\t'
  | 'n' => return '\n'
  | 'f' => return '\x0c'
  | 'r' => return '\r'
  | 'u' => codePoint 4
  | 'U' => codePoint 8
  | c => if c == quoteMark || c == escapeMark then return c else failure

/-- A basic string on one line. -/
def basicLine : Reader String := do
  char quoteMark
  let cs ← many (satisfy isBasicChar <|> (char escapeMark *> escaped))
  char quoteMark
  return String.ofList cs

/-- A literal string on one line. -/
def literalLine : Reader String := do
  char apostrophe
  let cs ← takeWhile isLiteralChar
  char apostrophe
  return String.ofList cs

/-- One or two marks that do not end a string of several lines. -/
def loneMarks (mark : Char) : Reader (List Char) := do
  let marks ← takeWhile (· == mark)
  if marks.length = 1 ∨ marks.length = 2 then return marks else failure

/-- Three marks that end a string of several lines; one or two more before them belong to it. -/
def closingMarks (mark : Char) : Reader (List Char) := do
  let marks ← takeWhile (· == mark)
  if 3 ≤ marks.length ∧ marks.length ≤ 5 then return marks.drop 3 else failure

/--
A string of several lines between triple marks; an end of line right after the first mark is left
out.
-/
def multiline (mark : Char) (piece : Reader (List Char)) : Reader String := do
  let _ ← times (char mark) 3
  let _ ← optional newline
  let pieces ← many (piece <|> (newline *> pure ['\n']) <|> loneMarks mark)
  let final ← closingMarks mark
  return String.ofList (pieces.flatten ++ final)

/-- An escaped end of line, which takes all blank space after it along. -/
def lineContinuation : Reader (List Char) := do
  char escapeMark
  blanks
  newline
  blanks
  let _ ← many (newline *> blanks)
  return []

/-- A character, an escape or an escaped end of line. -/
def basicPiece : Reader (List Char) :=
  (([·]) <$> satisfy isBasicChar) <|> lineContinuation <|>
    (([·]) <$> (char escapeMark *> escaped))

/-- A string of any kind. -/
def string : Reader String :=
  multiline quoteMark basicPiece <|> basicLine <|>
    multiline apostrophe (([·]) <$> satisfy isLiteralChar) <|> literalLine

/-- A bare word. -/
def bareKey : Reader String := do
  let cs ← takeWhile isBareChar
  if cs.isEmpty then failure else return String.ofList cs

/-- A path of keys, with blanks around them. -/
def path : Reader (List String) :=
  separated (blanks *> (bareKey <|> basicLine <|> literalLine) <* blanks) (char '.')

end Reader
end Toml
end LinearLayout
