/-!
# Relations between two sides of a constraint
-/

namespace LinearLayout

/-- How the left side of a constraint compares with its right side. -/
inductive Relation where
  | atMost
  | equal
  | atLeast
deriving DecidableEq, Repr

namespace Relation

/-- The sign of a relation. -/
def text : Relation → String
  | .atMost => "<="
  | .equal => "=="
  | .atLeast => ">="

/-- The relation with a sign. -/
def ofText? : String → Option Relation
  | "<=" => some .atMost
  | "==" => some .equal
  | ">=" => some .atLeast
  | _ => none

end Relation
end LinearLayout
