import LinearLayout.Solver.Compile

/-!
# Adding equations

A new row is solved for one of its symbols if one can be found that no other row depends on for
its sign.  Otherwise an artificial symbol stands in for the row and is minimised; the equation is
accepted only if it can be brought to zero.
-/

namespace LinearLayout

/-- How a new row comes into the tableau. -/
inductive Entry where
  /-- The row is solved for this symbol. -/
  | solveFor (subject : Symbol)
  /-- An artificial symbol has to be minimised first. -/
  | artificial
  /-- The row cannot be zero. -/
  | conflict
deriving DecidableEq, Repr

namespace Tableau

variable {K : Type} [Scalar K]

/--
The symbol that a new row is solved for: an unknown if there is one, else a new slack with a
negative coefficient, else, in a row of dummies alone, the last new dummy.
-/
def chooseEntry (t : Tableau K) (row : Row K) : Entry :=
  match row.symbols.find? Symbol.isFree with
  | some subject => .solveFor subject
  | none =>
    match row.cells.entries.find? fun c =>
        c.1.isSlack && Scalar.less c.2 0 && !t.isReferenced c.1 with
    | some (subject, _) => .solveFor subject
    | none =>
      if row.symbols.all Symbol.isDummy then
        if Scalar.isNegligible row.constant then
          match (row.symbols.filter fun s => !t.isReferenced s).getLast? with
          | some subject => .solveFor subject
          | none => .artificial
        else .conflict
      else .artificial

/-- Solves a row for a symbol and puts it in place of the symbol everywhere. -/
def install (t : Tableau K) (subject : Symbol) (row : Row K) : Tableau K :=
  let solved := row.solveFor subject
  (t.substitute subject solved).addRow subject solved

/-- Removes an artificial symbol that has reached zero. -/
def dropArtificial (t : Tableau K) (artificial : Symbol) : Option (Tableau K) :=
  match t.row? artificial with
  | none => some (t.removeColumn artificial)
  | some row =>
    if row.isConstant then (t.removeRow artificial).map Prod.snd
    else
      (row.symbols.find? Symbol.isSlack).map fun entering =>
        (t.pivot entering artificial).removeColumn artificial

/-- Minimises an artificial symbol that stands in for a row; `none` if it stays above zero. -/
def tryAccept (t : Tableau K) (row : Row K) (artificial goal : Symbol) (further : Nat) :
    Option (Tableau K) × Ending :=
  let (t, ending) := ((t.addRow goal row).addRow artificial row).minimise goal further
  match t.removeRow goal with
  | none => (none, ending)
  | some (reached, t) =>
    if Scalar.isNegligible reached.constant then (t.dropArtificial artificial, ending)
    else (none, ending)

/-- Adds a multiple of a symbol to the objective, by way of its row if it is basic. -/
def charge (k : K) (t : Tableau K) (error : Symbol) : Tableau K :=
  match t.row? error with
  | some row => t.addRowTo .objective row k
  | none => t.addTermTo .objective error k

/-- Adds a multiple of every error of an equation to the objective. -/
def chargeAll (t : Tableau K) (markers : Markers) (k : K) : Tableau K :=
  markers.errors.foldl (charge k) t

end Tableau

namespace Solver

variable {K : Type} [Scalar K]

/-- Puts an equation in force whose row is in the tableau. -/
def enforce (s : Solver K) (e : Equation K) (markers : Markers) (tableau : Tableau K)
    (passes : List Pass) : Outcome K EquationKey :=
  let key : EquationKey := ⟨s.nextKey⟩
  let s : Solver K :=
    { s with
      tableau := tableau.chargeAll markers (e.strength.weight?.getD 0)
      equations := s.equations.insert key ⟨e, markers⟩
      nextKey := s.nextKey + 1 }
  let (s, pass) := s.minimise
  ⟨.ok key, s, passes ++ [pass]⟩

/-- Adds an equation by way of an artificial symbol. -/
def addArtificial (s : Solver K) (e : Equation K) (c : Compiled K) : Outcome K EquationKey :=
  let (artificial, s) := s.fresh .slack
  let (goal, s) := s.fresh .objective
  let (accepted, ending) := s.tableau.tryAccept c.row artificial goal s.furtherPivots
  let pass : Pass := ⟨.feasibility, ending⟩
  match accepted with
  | none => ⟨.error .unsatisfiable, s, [pass]⟩
  | some tableau => s.enforce e c.markers tableau [pass]

/--
Adds an equation.  A required equation that contradicts the installed required ones is refused,
and then the tableau is as it was.
-/
def add (s : Solver K) (e : Equation K) : Outcome K EquationKey :=
  let c := s.compile e
  match c.solver.tableau.chooseEntry c.row with
  | .solveFor subject =>
    c.solver.enforce e c.markers (c.solver.tableau.install subject c.row) []
  | .artificial => c.solver.addArtificial e c
  | .conflict => ⟨.error .unsatisfiable, c.solver, []⟩

end Solver
end LinearLayout
