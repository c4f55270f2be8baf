import LinearLayout.Proofs.Tableau.Acceptance
import LinearLayout.Proofs.Solver.WellFormed

/-!
# What equations say

Over the rationals an equation is a condition on the values of its variables.  The solver states
it as an equation between symbols, in which the markers take up the difference of the two sides.
A compiled row is zero exactly where this equation holds.
-/

namespace LinearLayout

namespace Equation

variable {e : Equation Rat} {ν : Variable → Rat}

/-- The left side of an equation. -/
def sum (e : Equation Rat) (ν : Variable → Rat) : Rat :=
  (e.terms.map fun t => t.coefficient * ν t.var).sum

/-- The left side less the constant, negated where the left side has to be the smaller one. -/
def room (e : Equation Rat) (ν : Variable → Rat) : Rat :=
  match e.relation with
  | .equal => e.sum ν - e.constant
  | .atLeast => e.sum ν - e.constant
  | .atMost => -(e.sum ν - e.constant)

/-- The values satisfy the equation. -/
def Satisfied (e : Equation Rat) (ν : Variable → Rat) : Prop :=
  match e.relation with
  | .equal => e.sum ν = e.constant
  | .atLeast => e.constant ≤ e.sum ν
  | .atMost => e.sum ν ≤ e.constant

/-- The weight of a preference; a required equation has none. -/
def weight (e : Equation Rat) : Rat :=
  e.strength.weight?.getD 0

theorem satisfied_iff_room_eq_zero
    (h : e.relation = .equal) :
    e.Satisfied ν ↔ e.room ν = 0 := by
  rw [Satisfied, room, h]
  exact sub_eq_zero.symm

theorem satisfied_iff_room_nonneg
    (h : e.relation ≠ .equal) :
    e.Satisfied ν ↔ 0 ≤ e.room ν := by
  unfold Satisfied room
  cases hrelation : e.relation with
  | equal =>
      exact absurd hrelation h
  | atLeast =>
      exact sub_nonneg.symm
  | atMost =>
      rw [neg_sub]
      exact sub_nonneg.symm

theorem sum_congr
    {μ : Variable → Rat}
    (h : ∀ term ∈ e.terms, μ term.var = ν term.var) :
    e.sum μ = e.sum ν := by
  unfold sum
  rw [List.map_congr_left fun term hterm => by rw [h term hterm]]

theorem room_congr
    {μ : Variable → Rat}
    (h : ∀ term ∈ e.terms, μ term.var = ν term.var) :
    e.room μ = e.room ν := by
  unfold room
  rw [sum_congr h]

end Equation

namespace Markers

variable {markers : Markers} {x : Rat} {s : Symbol} {σ τ : Assignment}

/-- What is left of the room of an equation when its markers have taken up their parts. -/
def residual (markers : Markers) (room : Rat) (σ : Assignment) : Rat :=
  match markers with
  | rigid dummy => room + σ dummy
  | elastic plus minus => room - σ plus + σ minus
  | bounded slack => room - σ slack
  | yielding slack error => room - σ slack + σ error

/-- The value of the marker at which nothing is left. -/
def solved (markers : Markers) (room : Rat) (σ : Assignment) : Rat :=
  match markers with
  | rigid _ => -room
  | elastic _ minus => room + σ minus
  | bounded _ => room
  | yielding _ error => room + σ error

theorem residual_eq_zero_iff :
    markers.residual x σ = 0 ↔ σ markers.marker = markers.solved x σ := by
  cases markers <;> simp only [residual, marker, solved]
  all_goals
    constructor
    · intro h
      linarith
    · intro h
      linarith

theorem residual_congr
    (h : ∀ s ∈ markers.symbols, σ s = τ s) :
    markers.residual x σ = markers.residual x τ := by
  cases markers <;> simp_all [residual, symbols]

theorem solved_update
    (hnodup : markers.symbols.Nodup)
    (y : Rat) :
    markers.solved x (Function.update σ markers.marker y) = markers.solved x σ := by
  cases markers with
  | rigid dummy => rfl
  | bounded slack => rfl
  | elastic plus minus =>
      have hne : minus ≠ plus := by
        rintro rfl
        simp [symbols] at hnodup
      simp only [solved, marker, Function.update_of_ne hne]
  | yielding slack error =>
      have hne : error ≠ slack := by
        rintro rfl
        simp [symbols] at hnodup
      simp only [solved, marker, Function.update_of_ne hne]

theorem errorSum_congr
    (h : ∀ s ∈ markers.symbols, σ s = τ s) :
    markers.errorSum σ = markers.errorSum τ := by
  unfold errorSum
  rw [List.map_congr_left fun s hs => h s (mem_symbols_of_mem_errors hs)]

end Markers

/-- The markers take up exactly the room of the equation. -/
def InstalledEquation.Holds (i : InstalledEquation Rat) (ν : Variable → Rat) (σ : Assignment) :
    Prop :=
  i.markers.residual (i.equation.room ν) σ = 0

namespace Solver

variable {s s' : Solver Rat} {e : Equation Rat} {σ τ : Assignment} {x : Symbol} {y : Rat}

/-- The values of the variables, read from the values of their symbols. -/
def valuation (s : Solver Rat) (σ : Assignment) : Variable → Rat :=
  fun v => (s.symbols.get? v).elim 0 σ

/-- The weighted errors of all installed equations. -/
def penalty (s : Solver Rat) (σ : Assignment) : Rat :=
  s.equations.total fun _ i => i.equation.weight * i.markers.errorSum σ

theorem valuation_of_get?
    {v : Variable}
    (h : s.symbols.get? v = some x) :
    s.valuation σ v = σ x := by
  simp only [valuation, h, Option.elim]

/-- The reported values are those of the reading. -/
theorem value_eq_valuation
    (s : Solver Rat) (v : Variable) :
    s.value v = s.valuation s.tableau.reading v := by
  unfold value valuation
  cases s.symbols.get? v <;> rfl

theorem Numbered.valuation_update
    (h : s.Numbered)
    (hx : x.isFree = false) :
    s.valuation (Function.update σ x y) = s.valuation σ := by
  funext v
  cases hv : s.symbols.get? v with
  | none =>
      simp only [valuation, hv, Option.elim]
  | some z =>
      have hzx : z ≠ x := by
        rintro rfl
        rw [h.isFree v z hv] at hx
        cases hx
      rw [valuation_of_get? hv, valuation_of_get? hv, Function.update_of_ne hzx]

/-- New symbols do not change what a known equation says. -/
theorem Extends.room_eq
    (h : s.Extends s')
    (hknown : ∀ term ∈ e.terms, ∃ x, s.symbols.get? term.var = some x) :
    e.room (s'.valuation σ) = e.room (s.valuation σ) := by
  refine Equation.room_congr fun term hterm => ?_
  obtain ⟨x, hx⟩ := hknown term hterm
  rw [valuation_of_get? hx, valuation_of_get? (h.symbols _ x hx)]

section Rows

theorem Partial.eval_addTerm
    {acc : Row Rat × Solver Rat}
    (h : s.Partial acc)
    (hσ : s.tableau.Holds σ)
    (term : Term Rat) :
    (Solver.addTerm acc term).1.eval σ =
      acc.1.eval σ + term.coefficient * (Solver.addTerm acc term).2.valuation σ term.var := by
  rw [addTerm_snd, valuation_of_get? (get?_symbolOf acc.2 term.var)]
  cases hrow : acc.2.tableau.row? (acc.2.symbolOf term.var).1 with
  | none =>
      rw [addTerm_eq_of_nonbasic hrow, Row.eval_addTerm]
  | some basic =>
      have hfree := (h.numbered.symbolOf term.var).isFree _ _ (get?_symbolOf acc.2 term.var)
      rw [addTerm_eq_of_row? hrow, Row.eval_addRow]
      rw [h.grows.tableau] at hrow
      rw [hσ _ basic hrow (Symbol.isObjective_of_isFree hfree)]

theorem Partial.eval_foldl
    (hσ : s.tableau.Holds σ)
    (terms : List (Term Rat))
    {acc : Row Rat × Solver Rat}
    (h : s.Partial acc) :
    (terms.foldl Solver.addTerm acc).1.eval σ = acc.1.eval σ + (terms.map fun t =>
      t.coefficient * (terms.foldl Solver.addTerm acc).2.valuation σ t.var).sum := by
  induction terms generalizing acc with
  | nil =>
      simp
  | cons term terms ih =>
      have hget : (Solver.addTerm acc term).2.symbols.get? term.var =
          some (acc.2.symbolOf term.var).1 := by
        rw [addTerm_snd]
        exact get?_symbolOf acc.2 term.var
      have hlater := (extends_foldl_addTerm terms (Solver.addTerm acc term)).symbols _ _ hget
      rw [List.foldl_cons, ih (h.addTerm term), h.eval_addTerm hσ, List.map_cons, List.sum_cons,
        valuation_of_get? hget, valuation_of_get? hlater]
      ring

/-- The compiled difference is the difference of the two sides. -/
theorem Numbered.eval_difference
    (h : s.Numbered)
    (hσ : s.tableau.Holds σ)
    (e : Equation Rat) :
    (s.difference e).1.eval σ = e.sum ((s.difference e).2.valuation σ) - e.constant := by
  have hstart : s.Partial (Row.ofConstant (-e.constant), s) :=
    ⟨Extends.refl s, h, by simp [Tableau.Nonbasic]⟩
  rw [Solver.difference, hstart.eval_foldl hσ, Row.eval_ofConstant, Equation.sum]
  ring

theorem reduced_difference
    (s : Solver Rat) (e : Equation Rat) :
    (s.difference e).1.Reduced := by
  have hfold : ∀ (terms : List (Term Rat)) (acc : Row Rat × Solver Rat), acc.1.Reduced →
      (terms.foldl addTerm acc).1.Reduced := by
    intro terms
    induction terms with
    | nil =>
        exact fun _ h => h
    | cons term terms ih =>
        refine fun acc h => ih _ ?_
        cases hrow : acc.2.tableau.row? (acc.2.symbolOf term.var).1 with
        | none =>
            rw [addTerm_eq_of_nonbasic hrow]
            exact h.addTerm
        | some basic =>
            rw [addTerm_eq_of_row? hrow]
            exact h.addRow
  exact hfold e.terms _ (Row.reduced_ofConstant _)

/-- The markers of an equality complete its row to what they leave of it. -/
theorem eval_compileEqual
    (s : Solver Rat) (row : Row Rat) (required : Bool) :
    (s.compileEqual row required).row.eval σ =
      (s.compileEqual row required).markers.residual (row.eval σ) σ := by
  cases required with
  | true =>
      change (row.addTerm _ 1).eval σ = _ + _
      rw [Row.eval_addTerm, one_mul]
  | false =>
      change ((row.addTerm _ (-1)).addTerm _ 1).eval σ = _ - _ + _
      rw [Row.eval_addTerm, Row.eval_addTerm, one_mul, neg_one_mul, ← sub_eq_add_neg]

/-- The markers of an inequality complete its row to what they leave of it. -/
theorem eval_compileSurplus
    (s : Solver Rat) (row : Row Rat) (required : Bool) :
    (s.compileSurplus row required).row.eval σ =
      (s.compileSurplus row required).markers.residual (row.eval σ) σ := by
  cases required with
  | true =>
      change (row.addTerm _ (-1)).eval σ = _ - _
      rw [Row.eval_addTerm, neg_one_mul, ← sub_eq_add_neg]
  | false =>
      change ((row.addTerm _ (-1)).addTerm _ 1).eval σ = _ - _ + _
      rw [Row.eval_addTerm, Row.eval_addTerm, one_mul, neg_one_mul, ← sub_eq_add_neg]

theorem valuation_compileEqual
    (s : Solver Rat) (row : Row Rat) (required : Bool) :
    (s.compileEqual row required).solver.valuation σ = s.valuation σ := by
  cases required <;> rfl

theorem valuation_compileSurplus
    (s : Solver Rat) (row : Row Rat) (required : Bool) :
    (s.compileSurplus row required).solver.valuation σ = s.valuation σ := by
  cases required <;> rfl

theorem Numbered.eval_compileSigned
    (h : s.Numbered)
    (hσ : s.tableau.Holds σ)
    (e : Equation Rat) :
    (s.compileSigned e).row.eval σ = (s.compileSigned e).markers.residual
      (e.room ((s.compileSigned e).solver.valuation σ)) σ := by
  have hdifference := h.eval_difference hσ e
  unfold compileSigned
  cases hrelation : e.relation with
  | equal =>
      simp only [eval_compileEqual, valuation_compileEqual, Equation.room, hrelation, hdifference]
  | atLeast =>
      simp only [eval_compileSurplus, valuation_compileSurplus, Equation.room, hrelation,
        hdifference]
  | atMost =>
      simp only [eval_compileSurplus, valuation_compileSurplus, Equation.room, hrelation,
        Row.eval_scale, hdifference, mul_neg_one]

theorem reduced_compileEqual
    {row : Row Rat}
    (h : row.Reduced)
    (s : Solver Rat) (required : Bool) :
    (s.compileEqual row required).row.Reduced := by
  cases required with
  | true => exact h.addTerm
  | false => exact h.addTerm.addTerm

theorem reduced_compileSurplus
    {row : Row Rat}
    (h : row.Reduced)
    (s : Solver Rat) (required : Bool) :
    (s.compileSurplus row required).row.Reduced := by
  cases required with
  | true => exact h.addTerm
  | false => exact h.addTerm.addTerm

theorem reduced_compileSigned
    (s : Solver Rat) (e : Equation Rat) :
    (s.compileSigned e).row.Reduced := by
  have hdifference := reduced_difference s e
  unfold compileSigned
  cases e.relation with
  | equal => exact reduced_compileEqual hdifference _ _
  | atLeast => exact reduced_compileSurplus hdifference _ _
  | atMost => exact reduced_compileSurplus (hdifference.scale (by norm_num)) _ _

theorem compile_eq
    (s : Solver Rat) (e : Equation Rat) :
    (s.compile e).markers = (s.compileSigned e).markers ∧
      (s.compile e).solver = (s.compileSigned e).solver ∧
      ((0 ≤ (s.compileSigned e).row.constant ∧ (s.compile e).row = (s.compileSigned e).row) ∨
        ((s.compileSigned e).row.constant < 0 ∧
          (s.compile e).row = (s.compileSigned e).row.scale (-1))) := by
  unfold compile
  dsimp only
  split
  · next hless => exact ⟨rfl, rfl, Or.inr ⟨(Scalar.less_rat _ _).1 hless, rfl⟩⟩
  · next hless =>
      rw [Scalar.less_rat, not_lt] at hless
      exact ⟨rfl, rfl, Or.inl ⟨hless, rfl⟩⟩

/-- A compiled row is zero where its equation leaves nothing. -/
theorem Numbered.eval_compile_eq_zero_iff
    (h : s.Numbered)
    (hσ : s.tableau.Holds σ)
    (e : Equation Rat) :
    (s.compile e).row.eval σ = 0 ↔
      (s.compile e).markers.residual (e.room ((s.compile e).solver.valuation σ)) σ = 0 := by
  obtain ⟨hmarkers, hsolver, ⟨_, hrow⟩ | ⟨_, hrow⟩⟩ := compile_eq s e
  · rw [hmarkers, hsolver, hrow, h.eval_compileSigned hσ e]
  · rw [hmarkers, hsolver, hrow, Row.eval_scale, h.eval_compileSigned hσ e, mul_neg_one,
      neg_eq_zero]

theorem constant_compile_nonneg
    (s : Solver Rat) (e : Equation Rat) :
    0 ≤ (s.compile e).row.constant := by
  obtain ⟨_, _, ⟨hnonneg, hrow⟩ | ⟨hneg, hrow⟩⟩ := compile_eq s e
  · rw [hrow]
    exact hnonneg
  · rw [hrow, Row.constant_scale, mul_neg_one]
    linarith

theorem reduced_compile
    (s : Solver Rat) (e : Equation Rat) :
    (s.compile e).row.Reduced := by
  obtain ⟨_, _, ⟨_, hrow⟩ | ⟨_, hrow⟩⟩ := compile_eq s e
  · rw [hrow]
    exact reduced_compileSigned s e
  · rw [hrow]
    exact (reduced_compileSigned s e).scale (by norm_num)

end Rows

end Solver
end LinearLayout
