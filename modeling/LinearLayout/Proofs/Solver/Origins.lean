import LinearLayout.Proofs.Doubles
import LinearLayout.Proofs.Solver.Exact
import LinearLayout.Proofs.Tableau.Origins

/-!
# Near-zero cells of a run

A compiled row has no cell that counts as cancelled, and whatever happens to it afterwards, such a
cell can come up only when a row is solved for a symbol.  So the rows that were solved during a run
tell where near-zero cells are: if none of these rows has one, no stored row has one.

Solving does produce them, on doubles: a coefficient that is far larger than the others of its row
divides them to almost nothing.
-/

namespace LinearLayout

variable {K : Type} [Scalar K]

/-- A change of sign makes no number count as cancelled. -/
def Scalar.KeepsSigns (K : Type) [Scalar K] : Prop :=
  ∀ c : K, isNegligible c = false → isNegligible (c * -1) = false

theorem Scalar.keepsSigns_float :
    KeepsSigns Float :=
  fun c h => (Double.isNegligible_mul_neg_one c).trans h

theorem Row.Pruned.scale_neg_one
    {r : Row K}
    (h : r.Pruned)
    (hsigns : Scalar.KeepsSigns K) :
    (r.scale (-1)).Pruned := by
  intro x c hc
  rw [get?_scale] at hc
  obtain ⟨b, hb, rfl⟩ := Option.map_eq_some_iff.1 hc
  exact hsigns b (h x b hb)

theorem Row.Pruned.addTerm
    {r : Row K}
    (h : r.Pruned)
    (s : Symbol) (k : K) :
    (r.addTerm s k).Pruned :=
  pruned_iff_traced_nil.2 ((h.traced []).addTerm s k)

theorem Row.Pruned.addRow
    {r : Row K}
    (h : r.Pruned)
    (other : Row K) (k : K) :
    (r.addRow other k).Pruned :=
  pruned_iff_traced_nil.2 ((h.traced []).addRow other k)

namespace Solver

variable {s s' : Solver K} {e : Equation K} {t : Tableau K} {origins : List (Row K)}
variable {r : Row K}

section Compiled

theorem pruned_foldl_addTerm
    (terms : List (Term K)) (acc : Row K × Solver K)
    (h : acc.1.Pruned) :
    (terms.foldl addTerm acc).1.Pruned := by
  induction terms generalizing acc with
  | nil =>
      exact h
  | cons term terms ih =>
      refine ih (addTerm acc term) ?_
      cases hrow : acc.2.tableau.row? (acc.2.symbolOf term.var).1 with
      | some basic =>
          rw [addTerm_eq_of_row? hrow]
          exact h.addRow basic _
      | none =>
          rw [addTerm_eq_of_nonbasic hrow]
          exact h.addTerm _ _

theorem pruned_compileEqual
    (h : r.Pruned)
    (required : Bool) :
    (s.compileEqual r required).row.Pruned := by
  unfold compileEqual
  split
  · exact h.addTerm _ _
  · exact (h.addTerm _ _).addTerm _ _

theorem pruned_compileSurplus
    (h : r.Pruned)
    (required : Bool) :
    (s.compileSurplus r required).row.Pruned := by
  unfold compileSurplus
  dsimp only
  split
  · exact h.addTerm _ _
  · exact (h.addTerm _ _).addTerm _ _

/-- Compiling adds terms and changes signs, and neither leaves a near-zero cell. -/
theorem pruned_compile
    (hsigns : Scalar.KeepsSigns K)
    (s : Solver K) (e : Equation K) :
    (s.compile e).row.Pruned := by
  have hdifference : (s.difference e).1.Pruned :=
    pruned_foldl_addTerm e.terms _ (Row.pruned_ofConstant _)
  have hsigned : (s.compileSigned e).row.Pruned := by
    unfold compileSigned
    cases e.relation with
    | equal => exact pruned_compileEqual hdifference _
    | atLeast => exact pruned_compileSurplus hdifference _
    | atMost => exact pruned_compileSurplus (hdifference.scale_neg_one hsigns) _
  unfold compile
  dsimp only
  split
  · exact hsigned.scale_neg_one hsigns
  · exact hsigned

end Compiled

section Solved

/-- The rows that are solved when the violations are minimised. -/
def minimiseSolved (s : Solver K) : List (Row K) :=
  s.tableau.minimiseSolved .objective s.furtherPivots

/-- The rows that are solved after an equation has been entered. -/
def enforceSolved (s : Solver K) (e : Equation K) (markers : Markers) (t : Tableau K) :
    List (Row K) :=
  (s.register e markers (t.chargeAll markers (e.strength.weight?.getD 0))).minimiseSolved

/-- The rows that an addition solves; a refused one leaves none. -/
def addSolved (s : Solver K) (e : Equation K) : List (Row K) :=
  let c := s.compile e
  match c.solver.tableau.chooseEntry c.row with
  | .solveFor subject =>
    c.row.solveFor subject ::
      c.solver.enforceSolved e c.markers (c.solver.tableau.install subject c.row)
  | .artificial =>
    match c.attempt.1 with
    | none => []
    | some t =>
      c.solver.tableau.acceptSolved c.row c.artificial c.goal c.solver.furtherPivots ++
        c.prepared.enforceSolved e c.markers t
  | .conflict => []

/-- The rows that a removal solves. -/
def removeSolved (s : Solver K) (key : EquationKey) : List (Row K) :=
  match s.equations.get? key with
  | none => []
  | some i =>
    (s.tableau.chargeAll i.markers (-(i.equation.strength.weight?.getD 0))).deleteSolved
        i.markers.marker ++
      (s.withdraw key i).minimiseSolved

/-- The rows that a call solves. -/
def solvedBy (s : Solver K) : Call K → List (Row K)
  | .add e => s.addSolved e
  | .remove key => s.removeSolved key
  | .solve => s.minimiseSolved
  | .value _ => []
  | .contains _ => []
  | .size => []
  | .objectiveValue => []

/-- The rows that a list of calls solves. -/
def solvedRows (s : Solver K) : List (Call K) → List (Row K)
  | [] => []
  | call :: calls => s.solvedBy call ++ (s.answer call).2.1.solvedRows calls

end Solved

section Steps

theorem traced_minimise
    (h : s.tableau.Traced origins)
    (hsolved : s.minimiseSolved ⊆ origins) :
    s.minimise.1.tableau.Traced origins := by
  rw [minimise_fst]
  exact Tableau.Traced.minimise h hsolved

theorem traced_enforce
    {markers : Markers} {ps : List Pass}
    (h : t.Traced origins)
    (hsolved : s.enforceSolved e markers t ⊆ origins) :
    (s.enforce e markers t ps).solver.tableau.Traced origins := by
  rw [enforce_solver]
  exact traced_minimise (h.chargeAll markers _) hsolved

theorem traced_add
    (hsigns : Scalar.KeepsSigns K)
    (hs : s.Numbered)
    (h : s.tableau.Traced origins)
    (hsolved : s.addSolved e ⊆ origins) :
    (s.add e).solver.tableau.Traced origins := by
  have hrow := pruned_compile hsigns s e
  rw [← (hs.compiles e).grows.tableau] at h
  obtain ⟨s', o, ps, henters, hadd⟩ := Compiled.exists_enters s e
  rw [hadd]
  unfold addSolved at hsolved
  dsimp only at hsolved
  cases henters with
  | @solved subject hchoice =>
      rw [hchoice] at hsolved
      simp only [List.cons_subset] at hsolved
      have hsubject := Tableau.isObjective_of_chooseEntry hchoice
      exact traced_enforce (h.install hsubject hsolved.1) hsolved.2
  | refused hchoice =>
      exact h
  | tried hchoice =>
      rw [hchoice] at hsolved
      cases haccept : (s.compile e).attempt.1 with
      | none => exact h
      | some t =>
          simp only [haccept, List.append_subset] at hsolved
          exact traced_enforce (h.tryAccept hrow haccept hsolved.1) hsolved.2

theorem traced_remove
    {key : EquationKey}
    (hs : s.WellFormed)
    (h : s.tableau.Traced origins)
    (hsolved : s.removeSolved key ⊆ origins) :
    (s.remove key).solver.tableau.Traced origins := by
  unfold removeSolved at hsolved
  cases hk : s.equations.get? key with
  | none =>
      rw [remove_of_get?_eq_none hk]
      exact h
  | some i =>
      rw [remove_of_get? hk]
      simp only [hk, List.append_subset] at hsolved
      exact traced_minimise (h.retract (hs.fits key i hk).1 hsolved.1) hsolved.2

theorem traced_answer
    (hsigns : Scalar.KeepsSigns K)
    (hs : s.WellFormed)
    (h : s.tableau.Traced origins)
    (call : Call K)
    (hsolved : s.solvedBy call ⊆ origins) :
    (s.answer call).2.1.tableau.Traced origins := by
  cases call with
  | add e => exact traced_add hsigns hs.toNumbered h hsolved
  | remove key => exact traced_remove hs h hsolved
  | solve => exact traced_minimise h hsolved
  | value v => exact h
  | contains key => exact h
  | size => exact h
  | objectiveValue => exact h

theorem traced_new
    (settings : SolverSettings) :
    (new settings).tableau.Traced origins :=
  Tableau.traced_empty.addRow ((Row.pruned_ofConstant 0).traced _)

/-- Every near-zero cell of a run comes from a row that the run has solved. -/
theorem traced_run
    {calls : List (Call K)}
    (hsigns : Scalar.KeepsSigns K)
    (hs : s.WellFormed)
    (h : s.tableau.Traced origins)
    (hsolved : s.solvedRows calls ⊆ origins) :
    (s.run calls).tableau.Traced origins := by
  induction calls generalizing s with
  | nil =>
      exact h
  | cons call calls ih =>
      rw [solvedRows, List.append_subset] at hsolved
      exact ih (hs.answer call) (traced_answer hsigns hs h call hsolved.1) hsolved.2

/--
On doubles, after any calls with any numbers: the objective row has no cell that counts as
cancelled, and a cell of another row that does so stands, symbol and coefficient, in a row that one
of the calls has solved for a symbol.  If none of the solved rows has such a cell, no stored row has
one.
-/
theorem negligible_cells_solved
    (settings : SolverSettings) (calls : List (Call Float)) :
    let s := (new settings).run calls
    let solved := (new settings).solvedRows calls
    (∀ r, s.tableau.row? .objective = some r → r.Pruned) ∧
      (∀ b r, s.tableau.row? b = some r → r.Traced solved) ∧
      ((∀ o ∈ solved, o.Pruned) → ∀ b r, s.tableau.row? b = some r → r.Pruned) := by
  intro s solved
  have htraced : s.tableau.Traced solved :=
    traced_run Scalar.keepsSigns_float (wellFormed_new settings) (traced_new settings)
      (List.Subset.refl _)
  have hrows : ∀ b r, s.tableau.row? b = some r → r.Traced solved :=
    fun b r hb => (htraced b r hb).mono (Tableau.originsOf_subset _ b)
  exact ⟨fun r hr => Row.pruned_iff_traced_nil.2 (htraced _ r hr), hrows,
    fun hsolved b r hb => (hrows b r hb).pruned hsolved⟩

/-- Where nothing is rounded and only zero counts as cancelled, no stored row has such a cell. -/
theorem pruned_run_exact
    (settings : SolverSettings) (calls : List (Call Rat)) :
    ∀ b r, ((new settings).run calls).tableau.row? b = some r → r.Pruned := by
  intro b r hb x c hc
  have hne := (exact_run settings calls).reduced b r hb x c hc
  exact Bool.eq_false_iff.2 fun hnegligible => hne ((Scalar.isNegligible_rat c).1 hnegligible)

end Steps

section Steep

/-- All numbers of a call are finite. -/
def Call.isFinite : Call Float → Bool
  | .add e => e.constant.isFinite && e.terms.all fun term => term.coefficient.isFinite
  | _ => true

/--
The terms of the second variable cancel, but not on doubles, where they add up to one.  That is
next to nothing beside the coefficient of the first variable.
-/
def steepEquation : Equation Float :=
  ⟨[⟨1e10, ⟨⟨1⟩, .left⟩⟩, ⟨3, ⟨⟨2⟩, .left⟩⟩, ⟨1e16, ⟨⟨2⟩, .left⟩⟩, ⟨-1e16, ⟨⟨2⟩, .left⟩⟩,
    ⟨-3, ⟨⟨2⟩, .left⟩⟩], .equal, 1e10, .required⟩

/-- The second variable is pinned far away once the first one has been solved for. -/
def steepCalls : List (Call Float) :=
  [.add steepEquation, .add (.pin ⟨⟨2⟩, .left⟩ 1e10)]

/-- All numbers are finite, near-zero cells are stored, and they have moved the first variable. -/
theorem not_pruned_steepCalls :
    let s := (new {}).run steepCalls
    (∀ call ∈ steepCalls, call.isFinite = true) ∧
      ¬ (∀ b r, s.tableau.row? b = some r → r.Pruned) ∧
      s.value ⟨⟨1⟩, .left⟩ = 0 := by
  refine ⟨?_, fun hpruned => ?_, by decide +kernel⟩
  · exact List.all_eq_true.1 (by decide +kernel : steepCalls.all Call.isFinite = true)
  · have hany : (((new {}).run steepCalls).tableau.rows.entries.any fun entry =>
        entry.2.cells.entries.any fun cell => Scalar.isNegligible cell.2) = true := by
      decide +kernel
    obtain ⟨entry, hentry, hcells⟩ := List.any_eq_true.1 hany
    obtain ⟨cell, hcell, hnegligible⟩ := List.any_eq_true.1 hcells
    have hrow := OrderedMap.get?_eq_some_iff.2 hentry
    rw [hpruned entry.1 entry.2 hrow cell.1 cell.2 (OrderedMap.get?_eq_some_iff.2 hcell)]
      at hnegligible
    cases hnegligible

end Steep

end Solver
end LinearLayout
