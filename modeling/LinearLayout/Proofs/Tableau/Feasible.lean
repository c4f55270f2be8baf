import Mathlib.Algebra.Order.BigOperators.Group.List
import Mathlib.Algebra.Order.Field.Basic
import Mathlib.Tactic.Linarith
import LinearLayout.Proofs.Roles
import LinearLayout.Proofs.Tableau.Solutions

/-!
# Feasible tableaux

A tableau is feasible if its restricted symbols read nonnegative values and no row but that of an
unknown mentions an unknown.  The ratio test of a minimisation keeps it so.

A quantity that is nonnegative wherever the restricted symbols are cannot fall without end, so a
slack that lowers it always meets a row that bounds the slack.
-/

namespace LinearLayout

/-- Restricted symbols have no negative value. -/
def Assignment.Nonneg (σ : Assignment) : Prop :=
  ∀ s : Symbol, s.isRestricted = true → 0 ≤ σ s

namespace Candidate

/-- The chosen candidate has the least ratio of all. -/
theorem ratio_le_of_foldl_least
    {cs : List (Candidate Rat)} {best : Option (Candidate Rat)} {d : Candidate Rat}
    (h : cs.foldl least best = some d) :
    (∀ b, best = some b → d.ratio ≤ b.ratio) ∧ ∀ c ∈ cs, d.ratio ≤ c.ratio := by
  induction cs generalizing best with
  | nil =>
      refine ⟨fun b hb => ?_, by simp⟩
      rw [List.foldl_nil, hb] at h
      cases h
      exact le_rfl
  | cons c cs ih =>
      obtain ⟨hbest, hrest⟩ := ih h
      have hstep : ∀ b, best = some b → d.ratio ≤ b.ratio ∧ d.ratio ≤ c.ratio := by
        rintro b rfl
        simp only [least, Scalar.less_rat] at hbest
        split at hbest
        · next hlt =>
            have hle := hbest c rfl
            exact ⟨hle.trans hlt.le, hle⟩
        · next hge =>
            have hle := hbest b rfl
            exact ⟨hle, hle.trans (not_lt.1 hge)⟩
      refine ⟨fun b hb => (hstep b hb).1, fun e he => ?_⟩
      rcases List.mem_cons.1 he with rfl | he
      · cases hb : best with
        | none =>
            subst hb
            exact hbest e rfl
        | some b =>
            exact (hstep b hb).2
      · exact hrest e he

end Candidate

namespace Tableau

/--
Restricted symbols read nonnegative values, objectives are mentioned nowhere, and unknowns only in
rows of unknowns.
-/
structure Feasible (t : Tableau Rat) : Prop where
  constant_nonneg : ∀ b r, t.row? b = some r → b.isRestricted = true → 0 ≤ r.constant
  not_objective : ∀ b r, t.row? b = some r → ∀ s ∈ r.symbols, s.isObjective = false
  not_free : ∀ b r, t.row? b = some r → b.isFree = false → ∀ s ∈ r.symbols, s.isFree = false

variable {t t' : Tableau Rat} {b s o entering leaving : Symbol} {row r q solved : Row Rat}
variable {σ : Assignment} {f : Assignment → Rat}

theorem Feasible.isRestricted_of_mem
    (h : t.Feasible)
    (hb : t.row? b = some r)
    (hbf : b.isFree = false)
    (hs : s ∈ r.symbols) :
    s.isRestricted = true :=
  Symbol.isRestricted_iff.2 ⟨h.not_free b r hb hbf s hs, h.not_objective b r hb s hs⟩

theorem Feasible.reading_nonneg
    (h : t.Feasible) :
    Assignment.Nonneg t.reading := by
  intro s hs
  cases hrow : t.row? s with
  | none =>
      rw [reading_of_nonbasic hrow]
  | some r =>
      rw [reading_of_row? hrow]
      exact h.constant_nonneg s r hrow hs

section Changes

theorem Feasible.addRow
    (h : t.Feasible)
    (hconstant : b.isRestricted = true → 0 ≤ row.constant)
    (hobjective : ∀ s ∈ row.symbols, s.isObjective = false)
    (hfree : b.isFree = false → ∀ s ∈ row.symbols, s.isFree = false) :
    (t.addRow b row).Feasible where
  constant_nonneg c r hc := by
    rcases row?_addRow_eq_some hc with ⟨rfl, rfl⟩ | ⟨_, hc⟩
    · exact hconstant
    · exact h.constant_nonneg c r hc
  not_objective c r hc := by
    rcases row?_addRow_eq_some hc with ⟨rfl, rfl⟩ | ⟨_, hc⟩
    · exact hobjective
    · exact h.not_objective c r hc
  not_free c r hc := by
    rcases row?_addRow_eq_some hc with ⟨rfl, rfl⟩ | ⟨_, hc⟩
    · exact hfree
    · exact h.not_free c r hc

theorem Feasible.removeRow
    (h : t.Feasible)
    (hremove : t.removeRow b = some (row, t')) :
    t'.Feasible where
  constant_nonneg c r hc :=
    h.constant_nonneg c r (row?_of_removeRow_eq_some hremove hc).2
  not_objective c r hc :=
    h.not_objective c r (row?_of_removeRow_eq_some hremove hc).2
  not_free c r hc :=
    h.not_free c r (row?_of_removeRow_eq_some hremove hc).2

theorem Feasible.removeColumn
    (h : t.Feasible)
    (x : Symbol) :
    (t.removeColumn x).Feasible where
  constant_nonneg c r hc hr := by
    obtain ⟨q, hq, rfl⟩ := row?_removeColumn_eq_some hc
    exact h.constant_nonneg c q hq hr
  not_objective c r hc s hs := by
    obtain ⟨q, hq, rfl⟩ := row?_removeColumn_eq_some hc
    exact h.not_objective c q hq s (Row.mem_symbols_without.1 hs).2
  not_free c r hc hcf s hs := by
    obtain ⟨q, hq, rfl⟩ := row?_removeColumn_eq_some hc
    exact h.not_free c q hq hcf s (Row.mem_symbols_without.1 hs).2

/-- Putting a row in place of a symbol brings unknowns only where the symbol was. -/
theorem Feasible.not_free_substitute
    (h : t.Feasible)
    (hq : t.row? b = some q)
    (hb : b.isFree = false)
    (hsolved : s ∈ q.symbols → ∀ i ∈ solved.symbols, i.isFree = false) :
    ∀ i ∈ (q.substitute s solved).symbols, i.isFree = false := by
  intro i hi
  rcases Row.mem_symbols_of_mem_substitute hi with ⟨_, hi⟩ | ⟨hs, hi⟩
  · exact h.not_free b q hq hb i hi
  · exact hsolved hs i hi

theorem Feasible.not_objective_substitute
    (h : t.Feasible)
    (hq : t.row? b = some q)
    (hsolved : ∀ i ∈ solved.symbols, i.isObjective = false) :
    ∀ i ∈ (q.substitute s solved).symbols, i.isObjective = false := by
  intro i hi
  rcases Row.mem_symbols_of_mem_substitute hi with ⟨_, hi⟩ | ⟨_, hi⟩
  · exact h.not_objective b q hq i hi
  · exact hsolved i hi

theorem Feasible.not_objective_exchange
    (h : t.Feasible)
    (hl : t.row? leaving = some row)
    (hleaving : leaving.isObjective = false) :
    ∀ i ∈ (row.exchange leaving entering).symbols, i.isObjective = false := by
  intro i hi
  rcases Row.mem_symbols_exchange.1 hi with rfl | hi
  · exact hleaving
  · exact h.not_objective leaving row hl i hi.2

theorem Feasible.not_free_exchange
    (h : t.Feasible)
    (hl : t.row? leaving = some row)
    (hleaving : leaving.isFree = false) :
    ∀ i ∈ (row.exchange leaving entering).symbols, i.isFree = false := by
  intro i hi
  rcases Row.mem_symbols_exchange.1 hi with rfl | hi
  · exact hleaving
  · exact h.not_free leaving row hl hleaving i hi.2

/-- A pivot between restricted symbols keeps a tableau feasible if no constant falls below zero. -/
theorem Feasible.pivot
    (h : t.Feasible)
    (hsound : t.Sound)
    (hl : t.row? leaving = some row)
    (he : entering ∈ row.symbols)
    (hleaving : leaving.isRestricted = true)
    (hratio : 0 ≤ -row.constant / row.coefficient entering)
    (hothers : ∀ b q, t.row? b = some q → b.isRestricted = true → b ≠ leaving →
      0 ≤ q.constant + q.coefficient entering * (-row.constant / row.coefficient entering)) :
    (t.pivot entering leaving).Feasible := by
  have hself := hsound.not_mem_of_row? hl hl
  obtain ⟨hlf, hlo⟩ := Symbol.isRestricted_iff.1 hleaving
  refine ⟨fun b r hb hbr => ?_, fun b r hb => ?_, fun b r hb hbf => ?_⟩
  · rcases row?_pivot_eq_some hl hb with ⟨_, rfl⟩ | ⟨_, hbl, q, hq, rfl⟩
    · rw [Row.constant_exchange he hself]
      exact hratio
    · rw [Row.constant_substitute, Row.constant_exchange he hself]
      exact hothers b q hq hbr hbl
  · rcases row?_pivot_eq_some hl hb with ⟨_, rfl⟩ | ⟨_, _, q, hq, rfl⟩
    · exact h.not_objective_exchange hl hlo
    · exact h.not_objective_substitute hq (h.not_objective_exchange hl hlo)
  · rcases row?_pivot_eq_some hl hb with ⟨_, rfl⟩ | ⟨_, _, q, hq, rfl⟩
    · exact h.not_free_exchange hl hlf
    · exact h.not_free_substitute hq hbf fun _ => h.not_free_exchange hl hlf

end Changes

section RatioTest

/-- The ratio test picks the least ratio among the rows that bound the entering symbol. -/
theorem leaving?_ratio_le
    (hsound : t.Sound)
    (h : t.leaving? entering = some leaving)
    (hl : t.row? leaving = some row)
    (hq : t.row? b = some q)
    (hb : b.isRestricted = true)
    (hneg : q.coefficient entering < 0) :
    -row.constant / row.coefficient entering ≤ -q.constant / q.coefficient entering := by
  obtain ⟨c, hc, hsymbol⟩ := Option.map_eq_some_iff.1 h
  have hchosen : c ∈ (t.column entering).filterMap (t.bound? entering) := by
    rcases Candidate.mem_of_foldl_least hc with hc | hc
    · simp at hc
    · exact hc
  obtain ⟨i, _, hbound⟩ := List.mem_filterMap.1 hchosen
  obtain ⟨_, row', hrow', _, rfl⟩ := bound?_eq_some hbound
  simp only at hsymbol
  subst hsymbol
  rw [hl] at hrow'
  cases hrow'
  have hmem : b ∈ t.column entering := by
    rw [hsound.mem_column_iff]
    exact ⟨q, hq, Row.mem_symbols_of_coefficient hneg.ne⟩
  have hcandidate :
      (⟨-q.constant / q.coefficient entering, b⟩ : Candidate Rat) ∈
        (t.column entering).filterMap (t.bound? entering) := by
    refine List.mem_filterMap.2 ⟨b, hmem, ?_⟩
    simp [bound?, hb, hq, hneg, Scalar.less]
  exact (Candidate.ratio_le_of_foldl_least hc).2 _ hcandidate

/-- One pivot of a minimisation keeps a tableau feasible. -/
theorem Feasible.pivot_leaving?
    (h : t.Feasible)
    (hsound : t.Sound)
    (hl : t.leaving? entering = some leaving) :
    (t.pivot entering leaving).Feasible := by
  obtain ⟨_, hleaving, row, hrow, hless⟩ := exists_of_leaving? hl
  have hneg : row.coefficient entering < 0 := (Scalar.less_rat _ _).1 hless
  have he : entering ∈ row.symbols := Row.mem_symbols_of_coefficient hneg.ne
  have hratio : 0 ≤ -row.constant / row.coefficient entering :=
    div_nonneg_of_nonpos (neg_nonpos.2 (h.constant_nonneg leaving row hrow hleaving)) hneg.le
  refine h.pivot hsound hrow he hleaving hratio fun b q hq hb _ => ?_
  have hconstant := h.constant_nonneg b q hq hb
  rcases le_or_gt 0 (q.coefficient entering) with hpos | hlt
  · exact add_nonneg hconstant (mul_nonneg hpos hratio)
  · have hle := leaving?_ratio_le hsound hl hrow hq hb hlt
    have hmul := mul_le_mul_of_nonpos_left hle hlt.le
    rw [mul_div_cancel₀ _ hlt.ne] at hmul
    linarith

end RatioTest

section Minimise

/-- A pivot of a minimisation leaves the tableau feasible and its solutions as they are. -/
theorem Sound.pivot_leaving?
    (h : t.Sound)
    (hfeasible : t.Feasible)
    (he : t.entering? o = some entering)
    (hl : t.leaving? entering = some leaving) :
    (t.pivot entering leaving).Sound ∧ (t.pivot entering leaving).Feasible ∧
      t.Agrees (t.pivot entering leaving) := by
  obtain ⟨row, hrow, hmem⟩ := h.exists_row_of_leaving? hl
  obtain ⟨_, hleaving, _⟩ := exists_of_leaving? hl
  obtain ⟨_, _, _, _, hentering, _⟩ := exists_of_entering? he
  exact ⟨h.pivot hrow hmem, hfeasible.pivot_leaving? h hl,
    h.agrees_pivot hrow hmem (Symbol.isObjective_of_isRestricted hleaving)
      (Symbol.isObjective_of_isSlack hentering)⟩

/-- A minimisation stays among sound and feasible tableaux with the same solutions. -/
theorem Sound.minimise
    (h : t.Sound)
    (hfeasible : t.Feasible)
    (o : Symbol)
    (further : Nat) :
    (t.minimise o further).1.Sound ∧ (t.minimise o further).1.Feasible ∧
      t.Agrees (t.minimise o further).1 := by
  refine minimise_induction
    (P := fun t' => t'.Sound ∧ t'.Feasible ∧ t.Agrees t') ?_ further
    ⟨h, hfeasible, Agrees.refl t⟩
  rintro t' entering leaving ⟨hsound, hfeasible, hagrees⟩ he hl
  obtain ⟨hsound', hfeasible', hagrees'⟩ := hsound.pivot_leaving? hfeasible he hl
  exact ⟨hsound', hfeasible', hagrees.trans hagrees'⟩

/-- Where no row bounds the entering symbol, no restricted row falls with it. -/
theorem Consistent.coefficient_nonneg
    (h : t.Consistent)
    (hbounds : (t.column entering).filterMap (t.bound? entering) = [])
    (hb : t.row? b = some q)
    (hbr : b.isRestricted = true) :
    0 ≤ q.coefficient entering := by
  by_contra hlt
  rw [not_le] at hlt
  have hmem : b ∈ t.column entering :=
    (h.mem_column_iff entering b).2 ⟨q, hb, Row.mem_symbols_of_coefficient hlt.ne⟩
  have hbound := List.filterMap_eq_nil_iff.1 hbounds b hmem
  simp [bound?, hbr, hb, hlt, Scalar.less] at hbound

theorem filterMap_bound?_eq_nil
    (hl : t.leaving? entering = none) :
    (t.column entering).filterMap (t.bound? entering) = [] := by
  by_contra hne
  have hsome : (t.leaving? entering).isSome = true := by
    rw [leaving?, Option.isSome_map]
    exact Candidate.foldl_least_isSome (Or.inr hne)
  rw [hl] at hsome
  cases hsome

/-- A symbol with which no restricted row falls can be raised from the basic solution at will. -/
theorem Feasible.nonneg_extend
    {x : Rat}
    (h : t.Feasible)
    (hcoefficient : ∀ b q, t.row? b = some q → b.isRestricted = true →
      0 ≤ q.coefficient entering)
    (hx : 0 ≤ x) :
    (t.extend (Function.update 0 entering x)).Nonneg := by
  intro s hs
  cases hrow : t.row? s with
  | none =>
      rw [extend_of_nonbasic hrow, Function.update_apply]
      split
      · exact hx
      · exact le_rfl
  | some q =>
      rw [extend_of_row? hrow, Row.eval_single]
      exact add_nonneg (h.constant_nonneg s q hrow hs) (mul_nonneg (hcoefficient s q hrow hs) hx)

/-- A slack that lowers a nonnegative quantity is bounded by some row. -/
theorem Sound.leaving?_ne_none
    (h : t.Sound)
    (hfeasible : t.Feasible)
    (hf : t.Measures o f)
    (hnonneg : ∀ σ, t.Holds σ → σ.Nonneg → 0 ≤ f σ)
    (he : t.entering? o = some entering) :
    t.leaving? entering ≠ none := by
  intro hl
  obtain ⟨row, c, hrow, hc, hslack, hless⟩ := exists_of_entering? he
  have hneg : c < 0 := (Scalar.less_rat c 0).1 hless
  have hvalue : ∀ x : Rat, 0 ≤ x → 0 ≤ row.constant + c * x := by
    intro x hx
    have hle := hnonneg _ (holds_extend h.toConsistent (Function.update 0 entering x))
      (hfeasible.nonneg_extend (fun _ _ => h.coefficient_nonneg (filterMap_bound?_eq_nil hl)) hx)
    rwa [← hf.eval_eq h.toConsistent hrow, Row.eval_single, Row.coefficient_of_get? hc] at hle
  -- Raised far enough, the slack would bring the quantity below zero.
  have hconstant : 0 ≤ row.constant := by
    simpa using hvalue 0 le_rfl
  have hlow := hvalue ((row.constant + 1) / -c) (div_nonneg (by linarith) (by linarith))
  have hproduct : c * ((row.constant + 1) / -c) = -(row.constant + 1) := by
    rw [div_neg, mul_neg, mul_div_cancel₀ _ hneg.ne]
  rw [hproduct] at hlow
  linarith

/-- The minimisation of a nonnegative quantity never ends as unbounded. -/
theorem Sound.minimise_ne_unbounded
    (h : t.Sound)
    (hfeasible : t.Feasible)
    (ho : o.isObjective = true)
    (hf : t.Measures o f)
    (hnonneg : ∀ σ, t.Holds σ → σ.Nonneg → 0 ≤ f σ)
    (further : Nat) :
    (t.minimise o further).2 ≠ .unbounded := by
  induction further generalizing t with
  | zero =>
      unfold Tableau.minimise
      split
      · simp
      · next entering he =>
          obtain ⟨leaving, hl⟩ :=
            Option.ne_none_iff_exists'.1 (h.leaving?_ne_none hfeasible hf hnonneg he)
          simp [hl]
  | succ n ih =>
      unfold Tableau.minimise
      split
      · simp
      · next entering he =>
          obtain ⟨leaving, hl⟩ :=
            Option.ne_none_iff_exists'.1 (h.leaving?_ne_none hfeasible hf hnonneg he)
          obtain ⟨hsound, hfeasible', hagrees⟩ := h.pivot_leaving? hfeasible he hl
          simp only [hl]
          refine ih hsound hfeasible' (hagrees.measures o f ho hf) fun σ hσ => ?_
          exact hnonneg σ ((hagrees.holds_iff σ).1 hσ)

/-- Where no slack lowers an objective any more, its reading is least while dummies are zero. -/
theorem Feasible.constant_le_eval
    (h : t.Feasible)
    (hoptimal : t.entering? o = none)
    (hr : t.row? o = some r)
    (ho : o.isFree = false)
    (hnonneg : σ.Nonneg)
    (hdummy : ∀ s : Symbol, s.isDummy = true → σ s = 0) :
    r.constant ≤ r.eval σ := by
  have hcell : ∀ e ∈ r.cells.entries, 0 ≤ e.2 * σ e.1 := by
    intro e he
    have hmem := Row.mem_symbols_of_mem_entries he
    rcases Symbol.isSlack_or_isDummy (h.isRestricted_of_mem hr ho hmem) with hslack | hzero
    · have hpass : Scalar.less e.2 0 = false := by
        by_contra hless
        rw [Bool.not_eq_false] at hless
        simp only [entering?, hr, Option.bind_some, Option.map_eq_none_iff,
          List.find?_eq_none] at hoptimal
        exact hoptimal e he (by rw [hslack, hless]; rfl)
      have hge : 0 ≤ e.2 := by
        by_contra hlt
        rw [(Scalar.less_rat e.2 0).2 (not_le.1 hlt)] at hpass
        cases hpass
      exact mul_nonneg hge (hnonneg e.1 (Symbol.isRestricted_of_isSlack hslack))
    · rw [hdummy e.1 hzero, mul_zero]
  rw [Row.eval]
  refine le_add_of_nonneg_right (List.sum_nonneg fun x hx => ?_)
  obtain ⟨e, he, rfl⟩ := List.mem_map.1 hx
  exact hcell e he

end Minimise

end Tableau
end LinearLayout
