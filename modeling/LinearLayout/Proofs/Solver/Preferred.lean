import LinearLayout.Proofs.Solver.Ledger

/-!
# Preferences are always accepted

The row of a preference contains two new slacks with opposite coefficients.  Whatever its sign
becomes, one of them has a negative coefficient, and no stored row mentions it.  So the row can be
solved for a symbol at once: no first phase is run, and the addition cannot fail.
-/

namespace LinearLayout

namespace Scalar

/-- One and minus one do not count as cancelled, and what is meant to be negative is so. -/
structure HasUnits (K : Type) [Scalar K] : Prop where
  one : isNegligible (1 : K) = false
  neg_one : isNegligible (-1 : K) = false
  less_neg_one : less (-1 : K) 0 = true
  less_one_mul_neg_one : less (1 * -1 : K) 0 = true

theorem hasUnits_float :
    HasUnits Float :=
  ⟨by decide, by decide, by decide, by decide⟩

end Scalar

variable {K : Type} [Scalar K]

namespace Tableau

variable {t : Tableau K} {row : Row K} {x : Symbol} {k : K}

/-- A row with a new slack that falls is solved for some symbol at once. -/
theorem exists_chooseEntry_eq_solveFor
    (hget : row.cells.get? x = some k)
    (hslack : x.isSlack = true)
    (hless : Scalar.less k 0 = true)
    (hnew : t.isReferenced x = false) :
    ∃ subject, t.chooseEntry row = .solveFor subject := by
  unfold chooseEntry
  cases hfree : row.symbols.find? Symbol.isFree with
  | some subject => exact ⟨subject, rfl⟩
  | none =>
      cases hfind : row.cells.entries.find? fun c =>
          c.1.isSlack && Scalar.less c.2 0 && !t.isReferenced c.1 with
      | some c => exact ⟨c.1, rfl⟩
      | none =>
          have hx := List.find?_eq_none.1 hfind (x, k) (OrderedMap.get?_eq_some_iff.1 hget)
          simp [hslack, hless, hnew] at hx

end Tableau

namespace Solver

variable {s : Solver K} {e : Equation K} {row : Row K} {n : Nat}

/-- The row of a preference is a difference of its sides that is completed with two slacks. -/
theorem exists_row_compileSigned
    (he : e.strength.isRequired = false) :
    ∃ row : Row K, row.symbols = (s.difference e).1.symbols ∧
      (s.compileSigned e).row =
        (row.addTerm ⟨(s.difference e).2.nextIndex, .slack⟩ (-1)).addTerm
          ⟨(s.difference e).2.nextIndex + 1, .slack⟩ 1 := by
  unfold compileSigned compileEqual compileSurplus
  cases e.relation with
  | equal => exact ⟨_, rfl, by rw [he]; rfl⟩
  | atLeast => exact ⟨_, rfl, by rw [he]; rfl⟩
  | atMost => exact ⟨_, Row.symbols_scale _ _, by rw [he]; rfl⟩

theorem get?_completed
    (hunits : Scalar.HasUnits K)
    (hrow : ∀ x ∈ row.symbols, x.index < n) :
    let completed := (row.addTerm ⟨n, .slack⟩ (-1)).addTerm ⟨n + 1, .slack⟩ 1
    completed.cells.get? ⟨n, .slack⟩ = some (-1) ∧
      completed.cells.get? ⟨n + 1, .slack⟩ = some 1 := by
  have hnew : ∀ m, n ≤ m → row.cells.get? ⟨m, .slack⟩ = none := by
    intro m hm
    refine Row.not_mem_symbols_iff.1 fun hmem => ?_
    have hlt := hrow _ hmem
    dsimp only at hlt
    omega
  have hfirst : (⟨n, .slack⟩ : Symbol) ≠ ⟨n + 1, .slack⟩ := by simp
  constructor
  · rw [Row.get?_addTerm, if_neg hfirst, Row.get?_addTerm, if_pos rfl, hnew n (Nat.le_refl n)]
    exact Row.prune_eq_some_iff.2 ⟨hunits.neg_one, rfl⟩
  · rw [Row.get?_addTerm, if_pos rfl, Row.get?_addTerm, if_neg hfirst.symm,
      hnew (n + 1) (Nat.le_succ n)]
    exact Row.prune_eq_some_iff.2 ⟨hunits.one, rfl⟩

/-- Of the two slacks of a preference one has a negative coefficient, whatever the sign. -/
theorem Numbered.exists_falling_slack
    (h : s.Numbered)
    (hunits : Scalar.HasUnits K)
    (he : e.strength.isRequired = false) :
    ∃ x k, (s.compile e).row.cells.get? x = some k ∧ x.isSlack = true ∧
      Scalar.less k 0 = true ∧ s.nextIndex ≤ x.index := by
  obtain ⟨row, hsymbols, hcompleted⟩ := exists_row_compileSigned (s := s) he
  have hpartial : s.Partial (s.difference e) := h.difference e
  have hrow : ∀ x ∈ row.symbols, x.index < (s.difference e).2.nextIndex := by
    intro x hx
    exact (hpartial.numbered.issued_of_stems (stems_difference s e x (hsymbols ▸ hx))).1
  obtain ⟨hminus, hplus⟩ := get?_completed hunits hrow
  have hle : s.nextIndex ≤ (s.difference e).2.nextIndex := hpartial.grows.nextIndex
  unfold compile
  dsimp only
  split
  · refine ⟨⟨(s.difference e).2.nextIndex + 1, .slack⟩, 1 * -1, ?_, rfl,
      hunits.less_one_mul_neg_one, Nat.le_succ_of_le hle⟩
    rw [Row.get?_scale, hcompleted, hplus]
    rfl
  · refine ⟨⟨(s.difference e).2.nextIndex, .slack⟩, -1, ?_, rfl, hunits.less_neg_one, hle⟩
    rw [hcompleted, hminus]

/-- A preference is accepted under the next key, by a single minimisation of the violations. -/
theorem Numbered.add_preferred
    (h : s.Numbered)
    (hunits : Scalar.HasUnits K)
    (he : e.strength.isRequired = false) :
    (s.add e).result = .ok ⟨s.nextKey⟩ ∧ ∃ ending, (s.add e).passes = [⟨.preference, ending⟩] := by
  obtain ⟨x, k, hget, hslack, hless, hle⟩ := h.exists_falling_slack hunits he
  have hgrows := (h.compiles e).grows
  have hnew : (s.compile e).solver.tableau.isReferenced x = false := by
    rw [hgrows.tableau]
    exact h.consistent.isReferenced_of_fresh (h.fresh_of_le hle)
  obtain ⟨subject, hchoice⟩ := Tableau.exists_chooseEntry_eq_solveFor hget hslack hless hnew
  have hadd : s.add e = (s.compile e).solver.enforce e (s.compile e).markers
      ((s.compile e).solver.tableau.install subject (s.compile e).row) [] := by
    rw [Solver.add, hchoice]
  rw [hadd, ← hgrows.nextKey]
  exact ⟨rfl, _, rfl⟩

/-- A preference goes on record under the next key, behind the equations that are there. -/
theorem WellFormed.onRecord_add_preferred
    (h : s.WellFormed)
    (hunits : Scalar.HasUnits K)
    (he : e.strength.isRequired = false) :
    (s.add e).solver.onRecord = s.onRecord ++ [(⟨s.nextKey⟩, e)] := by
  have hreply : (s.answer (.add e)).1 = .added (.ok ⟨s.nextKey⟩) :=
    congrArg Reply.added (h.toNumbered.add_preferred hunits he).1
  have hrevised := h.onRecord_answer (.add e)
  rw [hreply] at hrevised
  exact hrevised

/--
On doubles, in every state that a run can reach, a preference is accepted whatever its terms, its
relation, its constant and its weight are, infinities and numbers that are no numbers included.
It is installed under the next key, and no first phase is run for it.
-/
theorem preferred_accepted
    (settings : SolverSettings) (calls : List (Call Float))
    (terms : List (Term Float)) (relation : Relation) (constant weight : Float) :
    let s := (new settings).run calls
    let o := s.add ⟨terms, relation, constant, (Priority.preferred weight).strength⟩
    o.result = .ok ⟨s.nextKey⟩ ∧
      o.solver.onRecord = s.onRecord ++ [(⟨s.nextKey⟩,
        ⟨terms, relation, constant, (Priority.preferred weight).strength⟩)] ∧
      ∃ ending, o.passes = [⟨.preference, ending⟩] := by
  have h := wellFormed_run settings calls
  have hpreferred : (Priority.preferred weight).strength.isRequired = false := rfl
  obtain ⟨hresult, hpasses⟩ := h.toNumbered.add_preferred
    (e := ⟨terms, relation, constant, _⟩) Scalar.hasUnits_float hpreferred
  exact ⟨hresult, h.onRecord_add_preferred Scalar.hasUnits_float hpreferred, hpasses⟩

end Solver
end LinearLayout
