import Std.Data.TreeMap
import LinearLayout.Row
import LinearLayout.OrderedSet

/-!
# Tableaux

A tableau holds rows under their basic symbols.  For every symbol it also lists the rows that
mention it, in the order in which they came to do so, because that order decides between rows that
would do equally well.  Whenever a stored row changes, the columns of the symbols concerned are
brought in line with it.
-/

namespace LinearLayout

/-- For every symbol, the basic symbols of the rows that mention it. -/
abbrev Columns :=
  Std.TreeMap Symbol (OrderedSet Symbol) Symbol.order

namespace Columns

/-- The rows that mention a symbol. -/
def column (c : Columns) (s : Symbol) : OrderedSet Symbol :=
  c.getD s ∅

/-- Notes that the row of `basic` mentions a symbol. -/
def link (c : Columns) (s basic : Symbol) : Columns :=
  c.insert s ((c.column s).insert basic)

/-- Notes that the row of `basic` no longer mentions a symbol. -/
def unlink (c : Columns) (s basic : Symbol) : Columns :=
  c.modify s fun column => column.erase basic

/-- Brings the column of a symbol in line with the row of `basic`. -/
def align {K : Type} (basic : Symbol) (row : Row K) (c : Columns) (s : Symbol) : Columns :=
  if row.mentions s then c.link s basic else c.unlink s basic

/-- Brings the columns of the listed symbols in line with the row stored for `basic`. -/
def alignStored {K : Type} (rows : OrderedMap Symbol (Row K)) (touched : List Symbol)
    (c : Columns) (basic : Symbol) : Columns :=
  match rows.get? basic with
  | none => c
  | some row => touched.foldl (align basic row) c

end Columns

/-- Rows under their basic symbols, with the index of their columns. -/
structure Tableau (K : Type) where
  rows : OrderedMap Symbol (Row K)
  columns : Columns

namespace Tableau

variable {K : Type}

/-- The tableau without rows. -/
def empty : Tableau K :=
  ⟨∅, ∅⟩

instance : EmptyCollection (Tableau K) :=
  ⟨empty⟩

/-- The row of a basic symbol. -/
def row? (t : Tableau K) (s : Symbol) : Option (Row K) :=
  t.rows.get? s

/-- The basic symbols of the rows that mention a symbol. -/
def column (t : Tableau K) (s : Symbol) : List Symbol :=
  (Columns.column t.columns s).toList

/-- True if some row mentions the symbol. -/
def isReferenced (t : Tableau K) (s : Symbol) : Bool :=
  !(t.column s).isEmpty

/-- Stores a row whose cells may differ from the stored ones at the listed symbols only. -/
def store (t : Tableau K) (basic : Symbol) (row : Row K) (touched : List Symbol) : Tableau K where
  rows := t.rows.insert basic row
  columns := touched.foldl (Columns.align basic row) t.columns

/-- Adds the row of a symbol that was not basic. -/
def addRow (t : Tableau K) (basic : Symbol) (row : Row K) : Tableau K :=
  t.store basic row row.symbols

/-- Takes a row out. -/
def removeRow (t : Tableau K) (basic : Symbol) : Option (Row K × Tableau K) :=
  (t.row? basic).map fun row =>
    (row, ⟨t.rows.erase basic, row.symbols.foldl (fun c s => Columns.unlink c s basic) t.columns⟩)

/-- Drops a symbol from all rows, which fixes it at zero. -/
def removeColumn (t : Tableau K) (s : Symbol) : Tableau K where
  rows := t.rows.mapValues fun row => row.without s
  columns := t.columns.erase s

variable [Scalar K]

/-- Puts a row in place of a symbol wherever the symbol is mentioned. -/
def substitute (t : Tableau K) (s : Symbol) (replacement : Row K) : Tableau K :=
  let rows := t.rows.mapValues fun row => row.substitute s replacement
  { rows := rows
    columns := (t.column s).foldl (Columns.alignStored rows replacement.symbols)
      (t.columns.erase s) }

/-- Makes `entering` basic in the row that is now the row of `leaving`. -/
def pivot (t : Tableau K) (entering leaving : Symbol) : Tableau K :=
  match t.removeRow leaving with
  | none => t
  | some (row, rest) =>
    let solved := row.exchange leaving entering
    (rest.substitute entering solved).addRow entering solved

/-- Adds a multiple of a symbol to the row of `basic`. -/
def addTermTo (t : Tableau K) (basic s : Symbol) (k : K) : Tableau K :=
  match t.row? basic with
  | none => t
  | some row => t.store basic (row.addTerm s k) [s]

/-- Adds a multiple of a row to the row of `basic`. -/
def addRowTo (t : Tableau K) (basic : Symbol) (other : Row K) (k : K) : Tableau K :=
  match t.row? basic with
  | none => t
  | some row => t.store basic (row.addRow other k) other.symbols

end Tableau
end LinearLayout
