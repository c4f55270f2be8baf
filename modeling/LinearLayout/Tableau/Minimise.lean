import LinearLayout.Tableau

/-!
# Minimising an objective row

A minimisation pivots slacks with a negative objective coefficient into the basis until none is
left.  Which slack enters and which row it enters is decided by the order of cells and of columns.
The number of pivots is bounded, and every minimisation tells how it ended.
-/

namespace LinearLayout

/-- How a minimisation ended. -/
inductive Ending where
  /-- No slack has a negative coefficient in the objective row. -/
  | optimal
  /-- A slack could grow without end. -/
  | unbounded
  /-- The allowed number of pivots was used up. -/
  | pivotLimit
deriving DecidableEq, Repr

/-- A symbol with the distance at which it becomes zero. -/
structure Candidate (K : Type) where
  ratio : K
  symbol : Symbol

/-- Keeps the candidate with the least ratio, the first of several. -/
def Candidate.least {K : Type} [Scalar K] (best : Option (Candidate K)) (c : Candidate K) :
    Option (Candidate K) :=
  match best with
  | none => some c
  | some b => if Scalar.less c.ratio b.ratio then some c else some b

namespace Tableau

variable {K : Type} [Scalar K]

/-- The first slack that lowers an objective row when it grows. -/
def entering? (t : Tableau K) (objective : Symbol) : Option Symbol :=
  (t.row? objective).bind fun row =>
    (row.cells.entries.find? fun c => c.1.isSlack && Scalar.less c.2 0).map Prod.fst

/-- The bound that the row of `basic` puts on a growing symbol, if it puts one. -/
def bound? (t : Tableau K) (entering basic : Symbol) : Option (Candidate K) :=
  if basic.isRestricted then
    (t.row? basic).bind fun row =>
      let a := row.coefficient entering
      if Scalar.less a 0 then some ⟨-row.constant / a, basic⟩ else none
  else none

/-- The basic symbol that reaches zero first when a symbol grows. -/
def leaving? (t : Tableau K) (entering : Symbol) : Option Symbol :=
  (((t.column entering).filterMap (t.bound? entering)).foldl Candidate.least none).map
    Candidate.symbol

/-- Minimises an objective row; after the first pivot at most `further` more follow. -/
def minimise (objective : Symbol) (further : Nat) (t : Tableau K) : Tableau K × Ending :=
  match t.entering? objective with
  | none => (t, .optimal)
  | some entering =>
    match t.leaving? entering with
    | none => (t, .unbounded)
    | some leaving =>
      match further with
      | 0 => (t.pivot entering leaving, .pivotLimit)
      | n + 1 => minimise objective n (t.pivot entering leaving)

/-- A minimisation ends as optimal only where no slack lowers the objective any more. -/
theorem entering?_of_minimise_optimal
    {objective : Symbol} {further : Nat} {t t' : Tableau K}
    (h : t.minimise objective further = (t', .optimal)) :
    t'.entering? objective = none := by
  induction further generalizing t with
  | zero =>
      unfold minimise at h
      split at h
      · next he =>
          cases h
          exact he
      · split at h <;> simp at h
  | succ n ih =>
      unfold minimise at h
      split at h
      · next he =>
          cases h
          exact he
      · split at h
        · simp at h
        · exact ih h

end Tableau
end LinearLayout
