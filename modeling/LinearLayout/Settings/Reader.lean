import LinearLayout.Settings
import LinearLayout.Toml.Document

/-!
# Settings from text

Settings are written as a document with one table for each group.  Keys that name no setting are
ignored, and settings that are left out keep their defaults.  A group may also be written as an
array of its settings in their order.
-/

namespace LinearLayout

open Toml (Value Entries)

/-- The settings of a group that a value writes. -/
inductive Group where
  /-- Settings by name. -/
  | named (entries : Entries)
  /-- Settings in their order. -/
  | listed (items : List Value)

namespace Group

/-- A value as a group of settings; a date names none. -/
def ofValue? : Value → Option Group
  | .table _ entries => some (.named entries)
  | .array items => some (.listed items)
  | .tables items => some (.listed (items.map (.table .header)))
  | .moment => some (.named [])
  | _ => none

/-- The value of a setting, by its name or by its place. -/
def get? (g : Group) (name : String) (place : Nat) : Option Value :=
  match g with
  | .named entries => entries.get? name
  | .listed items => items[place]?

/-- Reads a setting if the group has it. -/
def setting {α : Type} (g : Group) (name : String) (place : Nat) (read : Value → Option α)
    (standard : α) : Option α :=
  match g.get? name place with
  | none => some standard
  | some v => read v

end Group

namespace Settings

/-- True of tables and arrays without content. -/
def isVoid : Value → Bool
  | .table _ [] => true
  | .array [] => true
  | .tables [] => true
  | _ => false

/-- A count. -/
def readCount : Value → Option Nat
  | .integer n => if 0 ≤ n then some n.toNat else none
  | _ => none

/-- A weight. -/
def readWeight : Value → Option Float
  | .integer n => some (Float.ofInt n)
  | .decimal x => some x
  | _ => none

/-- A priority: a word, or a table with the word as its only key. -/
def readPriority : Value → Option (Priority Float)
  | .text "required" => some .required
  | .table _ [("required", v)] => if isVoid v then some .required else none
  | .table _ [("preferred", v)] => (readWeight v).map .preferred
  | _ => none

/-- The settings of a solver. -/
def readSolver (v : Value) : Option SolverSettings := do
  let g ← Group.ofValue? v
  let standard : SolverSettings := {}
  let maxPivots ← g.setting "max_pivots" 0 readCount standard.maxPivots
  return ⟨maxPivots⟩

/-- The priorities of entities. -/
def readIntrinsic (v : Value) : Option (IntrinsicSettings Float) := do
  let g ← Group.ofValue? v
  let standard : IntrinsicSettings Float := {}
  let hugging ← g.setting "content_hugging" 0 readPriority standard.hugging
  let resistance ← g.setting "compression_resistance" 1 readPriority standard.resistance
  return ⟨hugging, resistance⟩

/-- All settings. -/
def read (entries : Entries) : Option (Settings Float) := do
  let g : Group := .named entries
  let solver ← g.setting "solver" 0 readSolver {}
  let intrinsic ← g.setting "intrinsic" 1 readIntrinsic {}
  return ⟨solver, intrinsic⟩

/-- Reads and checks settings. -/
def ofText (text : String) : Except SettingsError (Settings Float) :=
  match (Toml.parse? text).bind read with
  | none => .error .malformed
  | some s =>
    match s.validate with
    | .ok () => .ok s
    | .error e => .error e

/-- Reads and checks settings from a text that may be missing for some reason. -/
def load (contents : Except String String) : Except SettingsError (Settings Float) :=
  match contents with
  | .error reason => .error (.unreadable reason)
  | .ok text => ofText text

end Settings
end LinearLayout
