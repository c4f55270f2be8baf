import LinearLayout.Solver.Insert

/-!
# Removing equations

The row of an equation is the row of its marker.  A marker that is not basic is first pivoted into
a row that keeps the restricted symbols from becoming negative, and then its row is deleted.
-/

namespace LinearLayout

/-- The best row of each kind for a marker to be pivoted into. -/
structure Exits (K : Type) where
  /-- Among restricted rows with a negative coefficient, the one with the least ratio. -/
  negative : Option (Candidate K)
  /-- Among the other restricted rows, the one with the least ratio. -/
  positive : Option (Candidate K)
  /-- The first row of an unknown. -/
  free : Option Symbol

namespace Exits

variable {K : Type} [Scalar K]

/-- No row at all. -/
def none : Exits K :=
  ⟨.none, .none, .none⟩

/-- Takes one more row into account; objective rows do not count. -/
def consider (t : Tableau K) (marker : Symbol) (exits : Exits K) (basic : Symbol) : Exits K :=
  if basic.isObjective then exits
  else
    match t.row? basic with
    | .none => exits
    | some row =>
      let a := row.coefficient marker
      if basic.isRestricted then
        if Scalar.less a 0 then
          { exits with negative := Candidate.least exits.negative ⟨-row.constant / a, basic⟩ }
        else
          { exits with positive := Candidate.least exits.positive ⟨row.constant / a, basic⟩ }
      else { exits with free := exits.free <|> some basic }

/-- The row to take: a negative one, else a positive one, else that of an unknown. -/
def choice (exits : Exits K) : Option Symbol :=
  (exits.negative <|> exits.positive).map Candidate.symbol <|> exits.free

end Exits

namespace Tableau

variable {K : Type} [Scalar K]

/-- The row that a marker is pivoted into before its row is deleted. -/
def exit? (t : Tableau K) (marker : Symbol) : Option Symbol :=
  ((t.column marker).foldl (Exits.consider t marker) Exits.none).choice

/-- Deletes the row of a basic symbol. -/
def deleteRow (t : Tableau K) (basic : Symbol) : Tableau K :=
  ((t.removeRow basic).map Prod.snd).getD t

/-- Deletes the row of a marker, pivoting first where the marker is not basic. -/
def deleteMarker (t : Tableau K) (marker : Symbol) : Tableau K :=
  match t.removeRow marker with
  | some (_, t) => t
  | none =>
    match t.exit? marker with
    | some leaving => (t.pivot marker leaving).deleteRow marker
    | none => t.removeColumn marker

/-- Takes an equation out of the tableau: its errors out of the objective, then its row. -/
def retract (t : Tableau K) (markers : Markers) (weight : K) : Tableau K :=
  let t := (t.chargeAll markers (-weight)).deleteMarker markers.marker
  (markers.errors.filter (· ≠ markers.marker)).foldl removeColumn t

end Tableau

namespace Solver

variable {K : Type} [Scalar K]

/-- Removes an installed equation. -/
def remove (s : Solver K) (key : EquationKey) : Outcome K Unit :=
  match s.equations.get? key with
  | none => ⟨.error (.unknownEquation key), s, []⟩
  | some installed =>
    let weight := installed.equation.strength.weight?.getD 0
    let s : Solver K :=
      { s with
        tableau := s.tableau.retract installed.markers weight
        equations := s.equations.erase key }
    let (s, pass) := s.minimise
    ⟨.ok (), s, [pass]⟩

end Solver
end LinearLayout
