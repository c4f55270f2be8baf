import Mathlib.Algebra.BigOperators.Ring.List
import Mathlib.Algebra.Order.Field.Rat
import Mathlib.Tactic.LinearCombination
import Mathlib.Tactic.Ring
import LinearLayout.Proofs.OrderedMap.Total
import LinearLayout.Proofs.Row.Symbols

/-!
# Rows over the rationals

Where nothing is rounded, a row is an affine function of the values of its symbols.  Each change
of a row is described by what it does to that function; constants and coefficients follow, since
they are values of it.
-/

namespace LinearLayout

/-- A value for every symbol. -/
abbrev Assignment :=
  Symbol → Rat

namespace Row

variable {r other : Row Rat} {s i : Symbol} {k : Rat} {σ τ : Assignment}

/-- The value of a row. -/
def eval (r : Row Rat) (σ : Assignment) : Rat :=
  r.constant + r.cells.total fun s c => c * σ s

/-- No cell of the row is zero. -/
def Reduced (r : Row Rat) : Prop :=
  ∀ s c, r.cells.get? s = some c → c ≠ 0

section Eval

theorem coefficient_def :
    r.coefficient s = (r.cells.get? s).getD 0 :=
  rfl

theorem coefficient_of_get?
    {c : Rat}
    (h : r.cells.get? s = some c) :
    r.coefficient s = c := by
  rw [coefficient_def, h]
  rfl

theorem coefficient_of_not_mem
    (h : s ∉ r.symbols) :
    r.coefficient s = 0 := by
  rw [coefficient_def, not_mem_symbols_iff.1 h]
  rfl

theorem summand_eq
    (r : Row Rat) (s : Symbol) (σ : Assignment) :
    OrderedMap.summand (fun s c => c * σ s) s (r.cells.get? s) = r.coefficient s * σ s := by
  rw [coefficient_def]
  cases r.cells.get? s <;> simp [OrderedMap.summand]

@[simp] theorem eval_ofConstant
    (x : Rat) :
    (ofConstant x).eval σ = x := by
  have hcells : (ofConstant x).cells = ∅ := rfl
  simp [eval, hcells, show (ofConstant x).constant = x from rfl]

theorem summand_accumulate
    (o : Option Rat) :
    OrderedMap.summand (fun s c => c * σ s) s (accumulate k o) =
      OrderedMap.summand (fun s c => c * σ s) s o + k * σ s := by
  have hprune : ∀ c : Rat,
      OrderedMap.summand (fun s c => c * σ s) s (prune c) = c * σ s := by
    intro c
    unfold prune
    split
    · next h => simp [OrderedMap.summand, (Scalar.isNegligible_rat c).1 h]
    · rfl
  cases o with
  | none =>
      rw [accumulate, hprune]
      simp [OrderedMap.summand]
  | some c =>
      rw [accumulate, hprune]
      exact add_mul c k (σ s)

@[simp] theorem eval_addTerm :
    (r.addTerm s k).eval σ = r.eval σ + k * σ s := by
  simp only [eval, addTerm, OrderedMap.total_alter, summand_accumulate]
  ring

theorem eval_addTerms
    (terms : List (Symbol × Rat)) :
    (r.addTerms terms k).eval σ = r.eval σ + k * (terms.map fun t => t.2 * σ t.1).sum := by
  induction terms generalizing r with
  | nil =>
      simp [addTerms]
  | cons t terms ih =>
      have hstep : r.addTerms (t :: terms) k = (r.addTerm t.1 (t.2 * k)).addTerms terms k := rfl
      rw [hstep, ih, eval_addTerm, List.map_cons, List.sum_cons]
      ring

@[simp] theorem eval_addRow :
    (r.addRow other k).eval σ = r.eval σ + k * other.eval σ := by
  rw [addRow, eval_addTerms]
  simp only [eval, OrderedMap.total]
  ring

@[simp] theorem eval_scale :
    (r.scale k).eval σ = r.eval σ * k := by
  have hcells :
      (r.scale k).cells.total (fun s c => c * σ s) = r.cells.total (fun s c => c * σ s) * k := by
    rw [scale, OrderedMap.total_mapValues, OrderedMap.total, OrderedMap.total,
      ← List.sum_map_mul_right]
    congr 1
    exact List.map_congr_left fun e _ => mul_right_comm _ _ _
  rw [eval, hcells, eval, add_mul]
  rfl

theorem eval_without :
    (r.without s).eval σ = r.eval σ - r.coefficient s * σ s := by
  simp only [eval, without, OrderedMap.erase, OrderedMap.total_alter, summand_eq]
  simp only [OrderedMap.summand, Option.elim]
  ring

/-- A substitution is invisible where the symbol has the value of its replacement. -/
theorem eval_substitute :
    (r.substitute s other).eval σ =
      r.eval σ + r.coefficient s * (other.eval σ - σ s) := by
  by_cases hs : s ∈ r.symbols
  · obtain ⟨c, hc⟩ := mem_symbols_iff.1 hs
    simp only [substitute, hc, eval_addRow, eval_without, coefficient_of_get? hc]
    ring
  · rw [substitute_of_not_mem hs, coefficient_of_not_mem hs]
    ring

theorem reciprocal_eq
    (hs : s ∈ r.symbols) :
    r.reciprocal s = 1 / r.coefficient s := by
  obtain ⟨c, hc⟩ := mem_symbols_iff.1 hs
  rw [reciprocal, hc, coefficient_of_get? hc]
  rfl

theorem eval_solveFor
    (hs : s ∈ r.symbols) :
    (r.solveFor s).eval σ = -(r.eval σ - r.coefficient s * σ s) / r.coefficient s := by
  rw [solveFor, eval_scale, eval_without, reciprocal_eq hs]
  ring

theorem eval_exchange
    {leaving entering : Symbol}
    (he : entering ∈ r.symbols)
    (hne : leaving ∉ r.symbols) :
    (r.exchange leaving entering).eval σ =
      (σ leaving - (r.eval σ - r.coefficient entering * σ entering)) /
        r.coefficient entering := by
  have hnone : (r.solveFor entering).cells.get? leaving = none := by
    rw [← not_mem_symbols_iff, mem_symbols_solveFor]
    exact fun h => hne h.2
  have hsolved := eval_solveFor (σ := σ) he
  simp only [exchange, eval] at hsolved ⊢
  rw [OrderedMap.total_insert_of_not_mem _ _ _ hnone, ← add_assoc, hsolved, reciprocal_eq he]
  ring

end Eval

section Values

/-- A row is read from the values of its symbols alone. -/
theorem eval_congr
    (h : ∀ s ∈ r.symbols, σ s = τ s) :
    r.eval σ = r.eval τ := by
  unfold eval
  rw [OrderedMap.total_congr]
  intro e he
  rw [h e.1 (mem_symbols_of_mem_entries he)]

theorem eval_update :
    r.eval (Function.update σ s k) = r.eval σ + r.coefficient s * (k - σ s) := by
  have hrest :
      (r.without s).eval (Function.update σ s k) = (r.without s).eval σ := by
    refine eval_congr fun i hi => ?_
    exact Function.update_of_ne (mem_symbols_without.1 hi).1 _ _
  rw [eval_without, eval_without, Function.update_self] at hrest
  linear_combination hrest

theorem eval_update_of_not_mem
    (h : s ∉ r.symbols) :
    r.eval (Function.update σ s k) = r.eval σ := by
  rw [eval_update, coefficient_of_not_mem h, zero_mul, add_zero]

theorem eval_zero :
    r.eval 0 = r.constant := by
  have hcells : r.cells.total (fun s c => c * (0 : Assignment) s) = 0 := by
    simp [OrderedMap.total]
  rw [eval, hcells, add_zero]

/-- The value of a row where a single symbol differs from zero. -/
theorem eval_single :
    r.eval (Function.update 0 s k) = r.constant + r.coefficient s * k := by
  rw [eval_update, eval_zero]
  simp

theorem eval_eq_constant
    (h : ∀ s ∈ r.symbols, σ s = 0) :
    r.eval σ = r.constant := by
  rw [← eval_zero]
  exact eval_congr h

theorem eval_of_symbols_eq_nil
    (h : r.symbols = []) :
    r.eval σ = r.constant :=
  eval_eq_constant (by simp [h])

end Values

section Coefficients

theorem constant_scale :
    (r.scale k).constant = r.constant * k :=
  rfl

theorem coefficient_eq_eval :
    r.coefficient s = r.eval (Function.update 0 s 1) - r.eval 0 := by
  rw [eval_single, eval_zero]
  ring

theorem constant_substitute :
    (r.substitute s other).constant = r.constant + r.coefficient s * other.constant := by
  rw [← eval_zero, eval_substitute, eval_zero, eval_zero]
  simp

theorem constant_solveFor
    (hs : s ∈ r.symbols) :
    (r.solveFor s).constant = -r.constant / r.coefficient s := by
  rw [← eval_zero, eval_solveFor hs, eval_zero]
  simp

theorem constant_exchange
    {leaving entering : Symbol}
    (he : entering ∈ r.symbols)
    (hne : leaving ∉ r.symbols) :
    (r.exchange leaving entering).constant = -r.constant / r.coefficient entering := by
  rw [← eval_zero, eval_exchange he hne, eval_zero]
  simp

end Coefficients

section Reduced

theorem Reduced.coefficient_ne_zero
    (h : r.Reduced)
    (hs : s ∈ r.symbols) :
    r.coefficient s ≠ 0 := by
  obtain ⟨c, hc⟩ := mem_symbols_iff.1 hs
  rw [coefficient_of_get? hc]
  exact h s c hc

theorem Reduced.not_mem_of_coefficient
    (h : r.Reduced)
    (hs : r.coefficient s = 0) :
    s ∉ r.symbols :=
  fun hmem => h.coefficient_ne_zero hmem hs

theorem mem_symbols_of_coefficient
    (h : r.coefficient s ≠ 0) :
    s ∈ r.symbols := by
  by_contra hs
  exact h (coefficient_of_not_mem hs)

theorem reduced_ofConstant
    (x : Rat) :
    (ofConstant x).Reduced := by
  intro s c h
  cases h

theorem Reduced.addTerm
    (h : r.Reduced) :
    (r.addTerm s k).Reduced := by
  intro i c hc
  rw [get?_addTerm] at hc
  split at hc
  · have hprune : ∀ a : Rat, prune a = some c → c ≠ 0 := by
      rintro a ha rfl
      obtain ⟨hneg, rfl⟩ := prune_eq_some_iff.1 ha
      simp [Scalar.isNegligible] at hneg
    cases hs : r.cells.get? s with
    | none =>
        rw [hs] at hc
        exact hprune _ hc
    | some a =>
        rw [hs] at hc
        exact hprune _ hc
  · exact h i c hc

theorem Reduced.addTerms
    (h : r.Reduced)
    (terms : List (Symbol × Rat)) :
    (r.addTerms terms k).Reduced := by
  induction terms generalizing r with
  | nil =>
      exact h
  | cons t terms ih =>
      exact ih h.addTerm

theorem Reduced.addRow
    (h : r.Reduced) :
    (r.addRow other k).Reduced := by
  refine Reduced.addTerms ?_ _
  exact h

theorem Reduced.scale
    (h : r.Reduced)
    (hk : k ≠ 0) :
    (r.scale k).Reduced := by
  intro s c hc
  rw [get?_scale] at hc
  obtain ⟨a, ha, rfl⟩ := Option.map_eq_some_iff.1 hc
  exact mul_ne_zero (h s a ha) hk

theorem Reduced.without
    (h : r.Reduced) :
    (r.without s).Reduced := by
  intro i c hc
  rw [get?_without] at hc
  split at hc
  · cases hc
  · exact h i c hc

theorem Reduced.substitute
    (h : r.Reduced) :
    (r.substitute s other).Reduced := by
  unfold Row.substitute
  split
  · exact h
  · exact h.without.addRow

theorem Reduced.solveFor
    (h : r.Reduced)
    (hs : s ∈ r.symbols) :
    (r.solveFor s).Reduced := by
  refine h.without.scale ?_
  rw [reciprocal_eq hs]
  exact neg_ne_zero.2 (one_div_ne_zero (h.coefficient_ne_zero hs))

theorem Reduced.exchange
    {leaving entering : Symbol}
    (h : r.Reduced)
    (he : entering ∈ r.symbols) :
    (r.exchange leaving entering).Reduced := by
  intro i c hc
  have hget :
      (r.exchange leaving entering).cells.get? i =
        if i = leaving then some (r.reciprocal entering)
        else (r.solveFor entering).cells.get? i :=
    OrderedMap.get?_insert _ _ _ _
  rw [hget] at hc
  split at hc
  · cases hc
    rw [reciprocal_eq he]
    exact one_div_ne_zero (h.coefficient_ne_zero he)
  · exact h.solveFor he i c hc

end Reduced

end Row
end LinearLayout
