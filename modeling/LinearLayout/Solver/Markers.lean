import LinearLayout.Symbol

/-!
# The symbols of an equation

Every installed equation has symbols of its own.  One of them, the marker, is where its row is
found again; the errors measure how far a preference is violated.
-/

namespace LinearLayout

/-- The symbols that an installed equation brought with it. -/
inductive Markers where
  /-- A required equality, held by a dummy. -/
  | rigid (dummy : Symbol)
  /-- A preferred equality, violated upward or downward. -/
  | elastic (plus minus : Symbol)
  /-- A required inequality and the room it leaves. -/
  | bounded (slack : Symbol)
  /-- A preferred inequality, the room it leaves and its violation. -/
  | yielding (slack error : Symbol)
deriving DecidableEq, Repr

namespace Markers

/-- The symbol by which the row of an equation is found. -/
def marker : Markers → Symbol
  | rigid dummy => dummy
  | elastic plus _ => plus
  | bounded slack => slack
  | yielding slack _ => slack

/-- The symbols that measure violations. -/
def errors : Markers → List Symbol
  | rigid _ => []
  | elastic plus minus => [plus, minus]
  | bounded _ => []
  | yielding _ error => [error]

end Markers
end LinearLayout
