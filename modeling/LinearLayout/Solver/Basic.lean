import LinearLayout.Equation
import LinearLayout.Settings
import LinearLayout.Solver.Markers
import LinearLayout.Tableau.Minimise

/-!
# Solver states

A solver holds the installed equations, each with its own symbols, and a tableau that says the
same as all of them together.  Solving replaces neither: it only changes which symbols are basic.
-/

namespace LinearLayout

/-- The name of an equation within one solver. -/
structure EquationKey where
  number : Nat
deriving DecidableEq, Repr

namespace EquationKey

/-- The text of a key. -/
def text (k : EquationKey) : String :=
  "EquationKey(" ++ toString k.number ++ ")"

end EquationKey

/-- Why a solver refuses. -/
inductive SolverError where
  /-- A required equation contradicts the required equations that are installed. -/
  | unsatisfiable
  /-- No installed equation has this key. -/
  | unknownEquation (key : EquationKey)
deriving DecidableEq, Repr

namespace SolverError

/-- The text of a refusal. -/
def message : SolverError → String
  | .unsatisfiable => "The equation cannot be satisfied"
  | .unknownEquation key => "The equation " ++ key.text ++ " is not in the solver"

end SolverError

/-- An equation in force, with its symbols. -/
structure InstalledEquation (K : Type) [Scalar K] where
  equation : Equation K
  markers : Markers

/-- What a minimisation was run for. -/
inductive Goal where
  /-- To find values that satisfy a new required equation. -/
  | feasibility
  /-- To violate the preferences as little as possible. -/
  | preference
deriving DecidableEq, Repr

/-- A minimisation that was run, and how it ended. -/
structure Pass where
  goal : Goal
  ending : Ending
deriving DecidableEq, Repr

/-- The equations in force and the tableau that expresses them. -/
structure Solver (K : Type) [Scalar K] where
  settings : SolverSettings
  tableau : Tableau K
  equations : OrderedMap EquationKey (InstalledEquation K)
  /-- The symbols of all variables seen so far. -/
  symbols : OrderedMap Variable Symbol
  /-- The index of the next new symbol. -/
  nextIndex : Nat
  /-- The number of the next new key. -/
  nextKey : Nat

/-- What came of a request, with the minimisations that were run for it in order. -/
structure Outcome (K : Type) [Scalar K] (α : Type) where
  result : Except SolverError α
  solver : Solver K
  passes : List Pass

namespace Solver

variable {K : Type} [Scalar K]

/-- A solver without equations. -/
def new (settings : SolverSettings) : Solver K where
  settings := settings
  tableau := Tableau.addRow ∅ .objective (Row.ofConstant 0)
  equations := ∅
  symbols := ∅
  nextIndex := 1
  nextKey := 0

/-- The number of installed equations. -/
def size (s : Solver K) : Nat :=
  s.equations.size

/-- True if no equation is installed. -/
def isEmpty (s : Solver K) : Bool :=
  s.equations.isEmpty

/-- True if the key names an installed equation. -/
def contains (s : Solver K) (key : EquationKey) : Bool :=
  s.equations.contains key

/-- The value of a variable: the constant of its row, and zero if it has none. -/
def value (s : Solver K) (v : Variable) : K :=
  (((s.symbols.get? v).bind s.tableau.row?).map Row.constant).getD 0

/-- The sum of all weighted violations. -/
def objectiveValue (s : Solver K) : K :=
  ((s.tableau.row? .objective).map Row.constant).getD 0

/-- The number of pivots that may follow the first pivot of a minimisation. -/
def furtherPivots (s : Solver K) : Nat :=
  s.settings.maxPivots - 1

/-- A new symbol. -/
def fresh (s : Solver K) (role : Role) : Symbol × Solver K :=
  (⟨s.nextIndex, role⟩, { s with nextIndex := s.nextIndex + 1 })

/-- The symbol of a variable, a new one when it is seen for the first time. -/
def symbolOf (s : Solver K) (v : Variable) : Symbol × Solver K :=
  match s.symbols.get? v with
  | some symbol => (symbol, s)
  | none =>
    let (symbol, s) := s.fresh .free
    (symbol, { s with symbols := s.symbols.insert v symbol })

/-- Minimises the sum of all weighted violations. -/
def minimise (s : Solver K) : Solver K × Pass :=
  let (tableau, ending) := s.tableau.minimise .objective s.furtherPivots
  ({ s with tableau := tableau }, ⟨.preference, ending⟩)

/-- Minimises the violations once more. -/
def solve (s : Solver K) : Outcome K Unit :=
  let (s, pass) := s.minimise
  ⟨.ok (), s, [pass]⟩

end Solver
end LinearLayout
