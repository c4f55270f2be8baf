import LinearLayout.Proofs.Solver.WellFormed

/-!
# Settled solvers

A solver is settled if no slack lowers its objective.  A minimisation that ends as optimal settles
it, and a refused equation does not unsettle it, so a run leaves a settled solver if each of its
minimisations of the violations has ended as optimal.
-/

namespace LinearLayout
namespace Solver

variable {K : Type} [Scalar K] {s s' : Solver K}

/-- No slack has a negative coefficient in the objective row. -/
def Settled (s : Solver K) : Prop :=
  s.tableau.entering? .objective = none

/-- Each of the passes that minimise the violations has ended as optimal. -/
def Conclusive (ps : List Pass) : Prop :=
  ∀ p ∈ ps, p.goal = .preference → p.ending = .optimal

theorem settled_new
    (settings : SolverSettings) :
    (new (K := K) settings).Settled :=
  rfl

theorem Settled.extend
    (h : s.Settled)
    (hgrows : s.Extends s') :
    s'.Settled := by
  unfold Settled
  rw [hgrows.tableau]
  exact h

theorem settled_minimise
    (h : s.minimise.2.ending = .optimal) :
    s.minimise.1.Settled :=
  Tableau.entering?_of_minimise_optimal (Prod.ext rfl h)

theorem Settled.add
    (h : s.Settled)
    (hs : s.Numbered)
    (e : Equation K)
    (hpasses : Conclusive (s.add e).passes) :
    (s.add e).solver.Settled := by
  have hc := hs.compiles e
  obtain ⟨s', o, ps, henters, hadd⟩ := Compiled.exists_enters s e
  rw [hadd] at hpasses ⊢
  cases o with
  | none =>
      exact h.extend (hc.grows.trans henters.grows)
  | some t =>
      rw [Compiled.conclude, enforce_solver]
      rw [Compiled.conclude, enforce_passes] at hpasses
      exact settled_minimise
        (hpasses _ (List.mem_append_right ps List.mem_cons_self) rfl)

theorem Settled.remove
    {key : EquationKey}
    (h : s.Settled)
    (hpasses : Conclusive (s.remove key).passes) :
    (s.remove key).solver.Settled := by
  cases hk : s.equations.get? key with
  | none =>
      rw [remove_of_get?_eq_none hk]
      exact h
  | some i =>
      rw [remove_of_get? hk] at hpasses ⊢
      exact settled_minimise (hpasses _ List.mem_cons_self rfl)

theorem Settled.answer
    (h : s.Settled)
    (hs : s.Numbered)
    (call : Call K)
    (hpasses : Conclusive (s.answer call).2.2) :
    (s.answer call).2.1.Settled := by
  cases call with
  | add e => exact h.add hs e hpasses
  | remove key => exact h.remove hpasses
  | solve => exact settled_minimise (hpasses _ List.mem_cons_self rfl)
  | value v => exact h
  | contains key => exact h
  | size => exact h
  | objectiveValue => exact h

/-- A run whose minimisations have all ended as optimal leaves a settled solver. -/
theorem Settled.run
    {calls : List (Call K)}
    (h : s.Settled)
    (hs : s.WellFormed)
    (hpasses : Conclusive (s.passes calls)) :
    (s.run calls).Settled := by
  induction calls generalizing s with
  | nil =>
      exact h
  | cons call calls ih =>
      have hfirst : Conclusive (s.answer call).2.2 :=
        fun p hp => hpasses p (List.mem_append_left _ hp)
      have hrest : Conclusive ((s.answer call).2.1.passes calls) :=
        fun p hp => hpasses p (List.mem_append_right _ hp)
      exact ih (h.answer hs.toNumbered call hfirst) (hs.answer call) hrest

end Solver
end LinearLayout
