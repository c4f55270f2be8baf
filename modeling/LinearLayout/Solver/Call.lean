import LinearLayout.Solver.Remove

/-!
# Runs of a solver

A run is a list of calls, each answered in turn by the state that the earlier calls have left.
-/

namespace LinearLayout
namespace Solver

/-- What a solver can be asked to do or to tell. -/
inductive Call (K : Type) [Scalar K] where
  | add (e : Equation K)
  | remove (key : EquationKey)
  | solve
  | value (v : Variable)
  | contains (key : EquationKey)
  | size
  | objectiveValue

/-- What a solver answers. -/
inductive Reply (K : Type) where
  | added (result : Except SolverError EquationKey)
  | removed (result : Except SolverError Unit)
  | solved
  | number (x : K)
  | found (b : Bool)
  | count (n : Nat)

variable {K : Type} [Scalar K]

/-- The answer to a call, the solver after it, and the minimisations that were run for it. -/
def answer (s : Solver K) : Call K → Reply K × Solver K × List Pass
  | .add e =>
    let o := s.add e
    (.added o.result, o.solver, o.passes)
  | .remove key =>
    let o := s.remove key
    (.removed o.result, o.solver, o.passes)
  | .solve =>
    let o := s.solve
    (.solved, o.solver, o.passes)
  | .value v => (.number (s.value v), s, [])
  | .contains key => (.found (s.contains key), s, [])
  | .size => (.count s.size, s, [])
  | .objectiveValue => (.number s.objectiveValue, s, [])

/-- The solver after a list of calls. -/
def run (s : Solver K) (calls : List (Call K)) : Solver K :=
  calls.foldl (fun s call => (s.answer call).2.1) s

/-- The answers to a list of calls. -/
def replies (s : Solver K) : List (Call K) → List (Reply K)
  | [] => []
  | call :: calls =>
    let (reply, s, _) := s.answer call
    reply :: replies s calls

/-- The minimisations that were run for a list of calls. -/
def passes (s : Solver K) : List (Call K) → List Pass
  | [] => []
  | call :: calls =>
    let (_, s, ps) := s.answer call
    ps ++ passes s calls

theorem run_append
    (s : Solver K) (calls more : List (Call K)) :
    s.run (calls ++ more) = (s.run calls).run more := by
  simp [run, List.foldl_append]

end Solver
end LinearLayout
