import LinearLayout.Solver.Basic

/-!
# Equations as rows

An equation compiles to a row over non-basic symbols that has to be zero, together with the
symbols it brings along.  The sign of the row is chosen so that its constant is not negative.
-/

namespace LinearLayout

/-- A row that has to be zero, the symbols it brought, and the solver that knows them. -/
structure Compiled (K : Type) [Scalar K] where
  row : Row K
  markers : Markers
  solver : Solver K

namespace Solver

variable {K : Type} [Scalar K]

/-- Adds a term; a basic variable is replaced by its row. -/
def addTerm (acc : Row K × Solver K) (term : Term K) : Row K × Solver K :=
  let (symbol, s) := acc.2.symbolOf term.var
  match s.tableau.row? symbol with
  | some basic => (acc.1.addRow basic term.coefficient, s)
  | none => (acc.1.addTerm symbol term.coefficient, s)

/-- The difference of the two sides of an equation, over non-basic symbols. -/
def difference (s : Solver K) (e : Equation K) : Row K × Solver K :=
  e.terms.foldl addTerm (Row.ofConstant (-e.constant), s)

/-- Completes the difference of an equality with a dummy or with two errors. -/
def compileEqual (s : Solver K) (row : Row K) (required : Bool) : Compiled K :=
  if required then
    let (dummy, s) := s.fresh .dummy
    ⟨row.addTerm dummy 1, .rigid dummy, s⟩
  else
    let (plus, s) := s.fresh .slack
    let (minus, s) := s.fresh .slack
    ⟨(row.addTerm plus (-1)).addTerm minus 1, .elastic plus minus, s⟩

/-- Completes the surplus of an inequality with a slack and, for a preference, an error. -/
def compileSurplus (s : Solver K) (row : Row K) (required : Bool) : Compiled K :=
  let (slack, s) := s.fresh .slack
  let row := row.addTerm slack (-1)
  if required then ⟨row, .bounded slack, s⟩
  else
    let (error, s) := s.fresh .slack
    ⟨row.addTerm error 1, .yielding slack error, s⟩

/-- The row of an equation before its sign is chosen. -/
def compileSigned (s : Solver K) (e : Equation K) : Compiled K :=
  let (row, s) := s.difference e
  match e.relation with
  | .equal => s.compileEqual row e.strength.isRequired
  | .atLeast => s.compileSurplus row e.strength.isRequired
  | .atMost => s.compileSurplus (row.scale (-1)) e.strength.isRequired

/-- The row of an equation, its constant not negative. -/
def compile (s : Solver K) (e : Equation K) : Compiled K :=
  let c := s.compileSigned e
  if Scalar.less c.row.constant 0 then { c with row := c.row.scale (-1) } else c

end Solver
end LinearLayout
