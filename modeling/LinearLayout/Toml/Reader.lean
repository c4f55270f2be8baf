/-!
# Reading from a list of characters

A reader takes characters off the front of a list or fails.  Trying another reader after a failure
starts again where the first one started.
-/

namespace LinearLayout
namespace Toml

/-- Takes characters off the front of a list, or fails. -/
abbrev Reader :=
  StateT (List Char) Option

namespace Reader

/-- Takes one character that passes a test. -/
def satisfy (p : Char → Bool) : Reader Char := fun s =>
  match s with
  | [] => none
  | c :: rest => if p c then some (c, rest) else none

/-- Takes a given character. -/
def char (c : Char) : Reader Unit := do
  let _ ← satisfy (· == c)

/-- Takes a given text. -/
def literal (text : String) : Reader Unit :=
  text.toList.forM char

/-- Takes characters as long as they pass a test. -/
def takeWhile (p : Char → Bool) : Reader (List Char) := fun s =>
  some (s.span p)

/-- Succeeds at the end only. -/
def atEnd : Reader Unit := fun s =>
  if s.isEmpty then some ((), s) else none

/-- Runs a reader if it succeeds. -/
def optional {α : Type} (r : Reader α) : Reader (Option α) :=
  (some <$> r) <|> pure none

/-- Runs a reader at most a number of times, as often as it succeeds. -/
def upTo {α : Type} (r : Reader α) : Nat → Reader (List α)
  | 0 => pure []
  | n + 1 =>
    (do
      let a ← r
      let as ← upTo r n
      return a :: as) <|> pure []

/--
Runs a reader as often as it succeeds.  Each run is to take a character, so there are no more runs
than characters.
-/
def many {α : Type} (r : Reader α) : Reader (List α) := fun s =>
  upTo r s.length s

/-- Runs a reader once or more, with a separator between the runs. -/
def separated {α : Type} (r : Reader α) (separator : Reader Unit) : Reader (List α) := do
  let a ← r
  let as ← many (separator *> r)
  return a :: as

/-- Runs a reader exactly a number of times. -/
def times {α : Type} (r : Reader α) : Nat → Reader (List α)
  | 0 => pure []
  | n + 1 => do
    let a ← r
    let as ← times r n
    return a :: as

end Reader

/-- True of the characters that separate words within a line. -/
def isBlank (c : Char) : Bool :=
  c == ' ' || c == '\t'

/-- True of every character that is not one of the first 128. -/
def isForeign (c : Char) : Bool :=
  128 ≤ c.toNat

/-- True of the characters that a comment may hold. -/
def isCommentChar (c : Char) : Bool :=
  c == '\t' || (32 ≤ c.toNat && c.toNat ≤ 126) || isForeign c

namespace Reader

/-- Skips blanks within a line. -/
def blanks : Reader Unit := do
  let _ ← takeWhile isBlank

/-- The end of a line. -/
def newline : Reader Unit :=
  char '\n' <|> literal "\r\n"

/-- A comment up to the end of its line. -/
def comment : Reader Unit := do
  char '#'
  let _ ← takeWhile isCommentChar

/-- What may follow on the line of a finished item. -/
def lineRest : Reader Unit := do
  blanks
  let _ ← optional comment
  newline <|> atEnd

/-- Skips blanks, ends of lines and comments. -/
def filler : Reader Unit := do
  blanks
  let _ ← many do
    let _ ← optional comment
    newline
    blanks

end Reader
end Toml
end LinearLayout
