import LinearLayout.Toml.Number
import LinearLayout.Toml.Value

/-!
# Documents

A document is a list of lines.  A header says which table the lines after it belong to, and every
other line gives a value to a path of keys in that table.
-/

namespace LinearLayout
namespace Toml

/-- What a line of a document says. -/
inductive Line where
  | blank
  /-- The following lines belong to this table. -/
  | table (path : List String)
  /-- The following lines belong to a new item of this array of tables. -/
  | item (path : List String)
  /-- A value for a path of keys. -/
  | entry (path : List String) (v : Value)

/-- Values and paths are nested less deeply than this. -/
def nestingLimit : Nat :=
  80

namespace Reader

/-- A path of keys that is not too long. -/
def keys : Reader (List String) := do
  let ks ← path
  if ks.length < nestingLimit then return ks else failure

/-- A path of keys and its value. -/
def assignment (value : Reader Value) : Reader (List String × Value) := do
  let ks ← keys
  char '='
  blanks
  return (ks, ← value)

/-- A value without parts. -/
def simple : Reader Value :=
  (.text <$> string) <|> (literal "true" *> pure (.boolean true)) <|>
    (literal "false" *> pure (.boolean false)) <|> (moment *> pure .moment) <|>
    (.decimal <$> decimal) <|> (.decimal <$> special) <|> (.integer <$> integer)

/-- An array; its items may be spread over several lines, and a comma may follow the last one. -/
def array (value : Reader Value) : Reader Value := do
  char '['
  let items ← optional do
    let items ← separated (filler *> value <* filler) (char ',')
    let _ ← optional (char ',')
    return items
  filler
  char ']'
  return .array (items.getD [])

/-- A table in braces, on one line. -/
def braces (value : Reader Value) : Reader Value := do
  char '\x7b'
  let pairs ← optional (separated (assignment value <* blanks) (char ','))
  blanks
  char '\x7d'
  let entries ← (pairs.getD []).foldlM (fun es p => Entries.addPath p.1 p.2 .braces es)
    ([] : Entries)
  return .table .braces entries

/-- A value with less than a number of arrays and tables around any of its parts. -/
def value : Nat → Reader Value
  | 0 => simple
  | n + 1 => simple <|> array (value n) <|> braces (value n)

/-- One line of a document. -/
def line : Reader Line := do
  blanks
  let l ←
    (do
      literal "[["
      let ks ← keys
      literal "]]"
      lineRest
      return Line.item ks) <|>
    (do
      char '['
      let ks ← keys
      char ']'
      lineRest
      return Line.table ks) <|>
    (do
      let (ks, v) ← assignment (value (nestingLimit - 1))
      lineRest
      return Line.entry ks v) <|>
    (newline *> pure Line.blank) <|>
    (comment *> (newline <|> atEnd) *> pure Line.blank)
  return l

/-- All lines of a document; a mark of the byte order in front is skipped. -/
def lines : Reader (List Line) := do
  let _ ← optional (char '\ufeff')
  let ls ← many line
  blanks
  atEnd
  return ls

end Reader

/-- The table that lines belong to, and all that has been read so far. -/
structure Draft where
  current : List String := []
  entries : Entries := []

/-- Opens the table or item of a header. -/
def Draft.opened (d : Draft) (path : List String) (change : String → Entries → Option Entries) :
    Option Draft :=
  match path.getLast? with
  | none => none
  | some key =>
    (d.entries.descend false path.dropLast (fun _ es => change key es) .header).map fun es =>
      ⟨path, es⟩

/-- Takes one more line into account. -/
def Draft.read (d : Draft) : Line → Option Draft
  | .blank => some d
  | .table path => d.opened path Entries.openTable
  | .item path => d.opened path Entries.openItem
  | .entry path v =>
    (d.entries.descend false d.current (Entries.addPath path v) .header).map fun es =>
      { d with entries := es }

/-- The table that a text writes. -/
def parse? (text : String) : Option Entries := do
  let (lines, _) ← Reader.lines text.toList
  let draft ← lines.foldlM Draft.read {}
  return draft.entries

end Toml
end LinearLayout
