import LinearLayout.Proofs.Tableau.Dummies

/-!
# Refused rows

A row is refused where it is a nonzero constant plus dummies, where the least value of its
artificial symbol is positive, or where no slack is left to take the place of that symbol.  The
first two mean that the row is zero at no solution whose restricted symbols are not negative and
whose dummies are zero.  The third does not occur for a row that mentions a slack.
-/

namespace LinearLayout
namespace Tableau

variable {t t' : Tableau Rat} {row r : Row Rat} {σ τ : Assignment} {s x : Symbol}
variable {artificial goal : Symbol} {further : Nat}

theorem Grounded.extend_dummy
    (h : t.Grounded)
    (hτ : ∀ s : Symbol, s.isDummy = true → τ s = 0)
    (hs : s.isDummy = true) :
    t.extend τ s = 0 := by
  cases hrow : t.row? s with
  | none =>
      rw [extend_of_nonbasic hrow]
      exact hτ s hs
  | some r =>
      obtain ⟨hconstant, hdummy⟩ := h s r hrow hs
      rw [extend_of_row? hrow, Row.eval_eq_constant fun i hi => hτ i (hdummy i hi)]
      exact hconstant

/-- A row of dummies with another constant is never zero. -/
theorem eval_ne_zero_of_conflict
    (hconflict : t.chooseEntry row = .conflict)
    (hdummy : ∀ s : Symbol, s.isDummy = true → σ s = 0) :
    row.eval σ ≠ 0 := by
  obtain ⟨hsymbols, hconstant⟩ := chooseEntry_eq_conflict hconflict
  rw [Row.eval_eq_constant fun s hs => hdummy s (hsymbols s hs)]
  intro hzero
  rw [(Scalar.isNegligible_rat _).2 hzero] at hconstant
  cases hconstant

/-- A row for the first phase that mentions a new symbol mentions a slack. -/
theorem exists_slack_of_chooseEntry
    (hchoice : t.chooseEntry row = .artificial)
    (hrestricted : ∀ s ∈ row.symbols, s.isRestricted = true)
    (hconsistent : t.Consistent)
    (hx : x ∈ row.symbols)
    (hfresh : t.Fresh x) :
    ∃ s ∈ row.symbols, s.isSlack = true := by
  obtain ⟨_, ⟨s, hs, hsd⟩ | hreferenced⟩ := chooseEntry_eq_artificial hchoice
  · rcases Symbol.isSlack_or_isDummy (hrestricted s hs) with hslack | hdummy
    · exact ⟨s, hs, hslack⟩
    · rw [hdummy] at hsd
      cases hsd
  · have hx := hreferenced x hx
    rw [hconsistent.isReferenced_of_fresh hfresh] at hx
    cases hx

section TwoPhases

variable {reached : Row Rat} {rest : Tableau Rat}

/-- On the solutions, a row with a slack is not constant while the dummies stay at zero. -/
theorem FeasiblePhase.exists_eval_ne
    (h : t.FeasiblePhase row artificial goal)
    (hgrounded : t.Grounded)
    (hx : x ∈ row.symbols)
    (hslack : x.isSlack = true)
    (y : Rat) :
    ∃ σ, t.Holds σ ∧ (∀ s : Symbol, s.isDummy = true → σ s = 0) ∧ row.eval σ ≠ y := by
  by_contra hall
  push Not at hall
  have hvalue : ∀ z : Rat, row.constant + row.coefficient x * z = y := by
    intro z
    have hdummy : ∀ s : Symbol, s.isDummy = true → Function.update (0 : Assignment) x z s = 0 := by
      intro s hs
      refine Function.update_of_ne ?_ _ _
      rintro rfl
      rw [Symbol.isSlack_eq_false_of_isDummy hs] at hslack
      cases hslack
    have heval := hall _ (holds_extend h.sound.toConsistent (Function.update 0 x z))
      fun s hs => hgrounded.extend_dummy hdummy hs
    rwa [eval_extend h.nonbasic, Row.eval_single] at heval
  have hzero := hvalue 0
  have hone := hvalue 1
  exact h.reduced.coefficient_ne_zero hx (by linarith)

/-- A solution is one of the first phase if the artificial symbol gets the value of the row. -/
theorem FeasiblePhase.holds_rest
    (h : t.FeasiblePhase row artificial goal)
    (hreached : t.Reached row artificial reached rest)
    (hσ : t.Holds σ) :
    rest.Holds (Function.update σ artificial (row.eval σ)) := by
  refine (hreached.holds_iff _).2 ⟨h.fresh.holds_update_iff.2 hσ, ?_⟩
  rw [Function.update_self, Row.eval_update_of_not_mem h.not_mem]

theorem FeasiblePhase.entering?_eq_none
    (h : t.FeasiblePhase row artificial goal)
    (hlimit : (t.tryAccept row artificial goal further).2 ≠ .pivotLimit) :
    (t.minimised row artificial goal further).entering? goal = none := by
  have hunbounded : (t.tryAccept row artificial goal further).2 ≠ .unbounded :=
    h.tryAccept_ne_unbounded
  rw [tryAccept_snd] at hlimit hunbounded
  cases hending : ((t.withArtificial row artificial goal).minimise goal further).2 with
  | optimal => exact entering?_of_minimise_optimal (Prod.ext rfl hending)
  | unbounded => exact absurd hending hunbounded
  | pivotLimit => exact absurd hending hlimit

/-- Every feasible solution of the row bounds the least value of the artificial symbol. -/
theorem FeasiblePhase.constant_eq_zero
    (h : t.FeasiblePhase row artificial goal)
    (hremove : (t.minimised row artificial goal further).removeRow goal = some (reached, rest))
    (hlimit : (t.tryAccept row artificial goal further).2 ≠ .pivotLimit)
    (hσ : t.Holds σ)
    (hnonneg : σ.Nonneg)
    (hdummy : ∀ s : Symbol, s.isDummy = true → σ s = 0)
    (hzero : row.eval σ = 0) :
    reached.constant = 0 := by
  have hreached := h.reached hremove
  have hlift := h.holds_rest hreached hσ
  obtain ⟨_, hfeasible, _⟩ := h.minimised_spec further
  apply le_antisymm
  · have hle := hfeasible.constant_le_eval (h.entering?_eq_none hlimit)
      (row?_of_removeRow hremove).1 (Symbol.isFree_of_isObjective h.isObjective_goal)
      (σ := Function.update σ artificial (row.eval σ)) ?_ ?_
    · rwa [hreached.eval_eq _ hlift, Function.update_self, hzero] at hle
    · intro s hs
      rw [Function.update_apply]
      split
      · exact hzero.ge
      · exact hnonneg s hs
    · intro s hs
      rw [Function.update_apply]
      split
      · exact hzero
      · exact hdummy s hs
  · rw [← hreached.reading_eq]
    exact hreached.feasible.reading_nonneg artificial (Symbol.isRestricted_of_isSlack h.isSlack)

/-- The artificial symbol can go, because its row mentions a slack. -/
theorem FeasiblePhase.dropArtificial_ne_none
    (h : t.FeasiblePhase row artificial goal)
    (hreached : t.Reached row artificial reached rest)
    (hgrounded : t.Grounded)
    (hslack : ∃ s ∈ row.symbols, s.isSlack = true) :
    rest.dropArtificial artificial ≠ none := by
  intro hdrop
  obtain ⟨r, hr, hnoslack⟩ := dropArtificial_eq_none hdrop
  have har := Symbol.isRestricted_iff.1 (Symbol.isRestricted_of_isSlack h.isSlack)
  have hdummies : ∀ s ∈ r.symbols, s.isDummy = true := by
    intro s hs
    refine (Symbol.isSlack_or_isDummy
      (hreached.feasible.isRestricted_of_mem hr har.1 hs)).resolve_left ?_
    simp [hnoslack s hs]
  obtain ⟨x, hx, hxs⟩ := hslack
  obtain ⟨τ, hτ, hτd, hτr⟩ := h.exists_eval_ne hgrounded hx hxs r.constant
  -- A row of dummies is constant on the solutions that keep the dummies at zero.
  have hvalue := h.holds_rest hreached hτ artificial r hr har.2
  rw [Function.update_self,
    Row.eval_update_of_not_mem (hreached.sound.not_mem_of_row? hr hr),
    Row.eval_eq_constant fun s hs => hτd s (hdummies s hs)] at hvalue
  exact hτr hvalue

/-- A row that the first phase refuses is zero at no solution that is feasible. -/
theorem FeasiblePhase.eval_ne_zero
    (h : t.FeasiblePhase row artificial goal)
    (hgrounded : t.Grounded)
    (hslack : ∃ s ∈ row.symbols, s.isSlack = true)
    (hrefused : (t.tryAccept row artificial goal further).1 = none)
    (hlimit : (t.tryAccept row artificial goal further).2 ≠ .pivotLimit)
    (hσ : t.Holds σ)
    (hnonneg : σ.Nonneg)
    (hdummy : ∀ s : Symbol, s.isDummy = true → σ s = 0) :
    row.eval σ ≠ 0 := by
  intro hzero
  rcases tryAccept_eq_none hrefused with hnone | ⟨reached, rest, hremove, hpositive | hdrop⟩
  · obtain ⟨reached, hreached⟩ := h.exists_row?_goal further
    rw [minimised, hnone] at hreached
    cases hreached
  · have hconstant := h.constant_eq_zero hremove hlimit hσ hnonneg hdummy hzero
    rw [(Scalar.isNegligible_rat _).2 hconstant] at hpositive
    cases hpositive
  · exact h.dropArtificial_ne_none (h.reached hremove) hgrounded hslack hdrop

end TwoPhases

end Tableau
end LinearLayout
