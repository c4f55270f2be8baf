/-!
# Values and tables

A document is a table of values.  How a table came about decides what may still be added to it: a
table written in braces is complete, one with a header of its own can be entered by longer headers
but not by dotted keys, and one that only longer paths have mentioned can still be given a header.
-/

namespace LinearLayout
namespace Toml

/-- How a table came about. -/
inductive Origin where
  /-- Written in braces. -/
  | braces
  /-- Opened by a header of its own, or the document itself. -/
  | header
  /-- Mentioned on the way to another header. -/
  | mentioned
  /-- Made by a dotted key. -/
  | dotted
deriving DecidableEq

/-- A value of a document. -/
inductive Value where
  | boolean (b : Bool)
  | integer (n : Int)
  | decimal (x : Float)
  | text (s : String)
  | moment
  | array (items : List Value)
  | table (origin : Origin) (entries : List (String × Value))
  /-- An array whose items were opened by headers. -/
  | tables (items : List (List (String × Value)))

/-- The entries of a table. -/
abbrev Entries :=
  List (String × Value)

namespace Entries

/-- The value of a key. -/
def get? (es : Entries) (key : String) : Option Value :=
  es.lookup key

/-- Replaces the value of a key, or adds a new key at the end. -/
def set (es : Entries) (key : String) (v : Value) : Entries :=
  match es with
  | [] => [(key, v)]
  | e :: es => if e.1 == key then (key, v) :: es else e :: set es key v

/--
Changes the table at the end of a path, making the tables that are missing on the way.  A path
enters the last item of an array of tables.  Dotted keys cannot enter a table that has a header.
-/
def descend (isDotted : Bool) (path : List String) (change : Origin → Entries → Option Entries)
    (origin : Origin) (es : Entries) : Option Entries :=
  match path with
  | [] => change origin es
  | key :: path =>
    match get? es key with
    | none =>
      let origin : Origin := if isDotted then .dotted else .mentioned
      (descend isDotted path change origin []).map fun inner =>
        set es key (.table origin inner)
    | some (.table origin inner) =>
      if origin = .braces ∨ (isDotted ∧ origin = .header) then none
      else
        (descend isDotted path change origin inner).map fun inner =>
          set es key (.table origin inner)
    | some (.tables items) =>
      (descend isDotted path change .header (items.getLast?.getD [])).map fun inner =>
        set es key (.tables (items.dropLast ++ [inner]))
    | some _ => none

/-- Adds a value under a key that is new to its table. -/
def add (key : String) (v : Value) (es : Entries) : Option Entries :=
  match get? es key with
  | none => some (set es key v)
  | some _ => none

/--
Adds a value under a path of keys.  A dotted path may end only in a table that dotted keys have
made.
-/
def addPath (path : List String) (v : Value) (origin : Origin) (es : Entries) : Option Entries :=
  match path.getLast? with
  | none => none
  | some key =>
    let before := path.dropLast
    descend true before
      (fun o es => if before.isEmpty ∨ o = .dotted then add key v es else none) origin es

/-- Opens a table under a key; one that was only mentioned becomes a table with a header. -/
def openTable (key : String) (es : Entries) : Option Entries :=
  match get? es key with
  | none => some (set es key (.table .header []))
  | some (.table .mentioned inner) => some (set es key (.table .header inner))
  | some _ => none

/-- Opens one more item of an array of tables. -/
def openItem (key : String) (es : Entries) : Option Entries :=
  match get? es key with
  | none => some (set es key (.tables [[]]))
  | some (.tables items) => some (set es key (.tables (items ++ [[]])))
  | some _ => none

end Entries
end Toml
end LinearLayout
