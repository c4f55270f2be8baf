import LinearLayout.Proofs.Roles
import LinearLayout.Proofs.Row.Affine
import LinearLayout.Proofs.Tableau.Index

/-!
# The solutions of a tableau

Over the rationals a tableau is a system of equations: every basic symbol has the value of its
row.  Objective rows are not equations; they measure a quantity on the solutions.

A pivot changes neither the solutions nor what is measured, so a minimisation does not either.
The nonbasic symbols can be given any values, and the basic ones follow (`extend`).
-/

namespace LinearLayout
namespace Tableau

/-- Every basic symbol has the value of its row.  Objective rows state nothing. -/
def Holds (t : Tableau Rat) (σ : Assignment) : Prop :=
  ∀ b r, t.row? b = some r → b.isObjective = false → σ b = r.eval σ

/-- An objective row has the given value wherever the tableau holds. -/
def Measures (t : Tableau Rat) (o : Symbol) (f : Assignment → Rat) : Prop :=
  ∃ r, t.row? o = some r ∧ ∀ σ, t.Holds σ → r.eval σ = f σ

/-- A consistent tableau without zero cells. -/
structure Sound (t : Tableau Rat) : Prop extends t.Consistent where
  reduced : ∀ b r, t.row? b = some r → r.Reduced

/-- The second tableau has the solutions of the first, and its objectives measure the same. -/
structure Agrees (t t' : Tableau Rat) : Prop where
  holds_iff : ∀ σ, t'.Holds σ ↔ t.Holds σ
  measures : ∀ o f, o.isObjective = true → t.Measures o f → t'.Measures o f

/-- The solution in which the nonbasic symbols have given values. -/
def extend (t : Tableau Rat) (τ : Assignment) : Assignment :=
  fun s => match t.row? s with
    | some r => r.eval τ
    | none => τ s

/-- The value of a symbol where all nonbasic symbols are zero. -/
def reading {K : Type} [Scalar K] (t : Tableau K) (s : Symbol) : K :=
  ((t.row? s).map Row.constant).getD 0

variable {t t' : Tableau Rat} {b i s o entering leaving : Symbol} {row r solved : Row Rat}
variable {σ τ : Assignment} {f g : Assignment → Rat}

section Extension

theorem extend_of_row?
    (h : t.row? s = some r) :
    t.extend τ s = r.eval τ := by
  simp only [extend, h]

theorem extend_of_nonbasic
    (h : t.row? s = none) :
    t.extend τ s = τ s := by
  simp only [extend, h]

theorem eval_extend
    (h : t.Nonbasic r) :
    r.eval (t.extend τ) = r.eval τ :=
  Row.eval_congr fun s hs => extend_of_nonbasic (h s hs)

/-- Any values of the nonbasic symbols belong to a solution. -/
theorem holds_extend
    (h : t.Consistent)
    (τ : Assignment) :
    t.Holds (t.extend τ) := by
  intro b r hb _
  rw [extend_of_row? hb, eval_extend (h.nonbasic hb)]

theorem extend_zero :
    t.extend 0 s = t.reading s := by
  unfold extend reading
  cases t.row? s with
  | none =>
      rfl
  | some r =>
      exact Row.eval_zero

theorem reading_of_row?
    (h : t.row? s = some r) :
    t.reading s = r.constant := by
  simp [reading, h]

theorem reading_of_nonbasic
    (h : t.row? s = none) :
    t.reading s = 0 := by
  rw [← extend_zero, extend_of_nonbasic h]
  rfl

/-- What an objective row measures can be read off at any values of the nonbasic symbols. -/
theorem Measures.eval_eq
    (h : t.Consistent)
    (hf : t.Measures o f)
    (hr : t.row? o = some r)
    (τ : Assignment) :
    r.eval τ = f (t.extend τ) := by
  obtain ⟨q, hq, hmeasure⟩ := hf
  rw [hr] at hq
  cases hq
  rw [← hmeasure _ (holds_extend h τ), eval_extend (h.nonbasic hr)]

theorem Measures.reading_eq
    (h : t.Consistent)
    (hf : t.Measures o f) :
    t.reading o = f t.reading := by
  have hreading : t.extend 0 = t.reading := funext fun s => extend_zero
  have hrow := hf
  obtain ⟨r, hr, _⟩ := hrow
  rw [reading_of_row? hr, ← Row.eval_zero, Measures.eval_eq h hf hr 0, hreading]

theorem Measures.congr
    (hf : t.Measures o f)
    (h : ∀ σ, t.Holds σ → f σ = g σ) :
    t.Measures o g := by
  obtain ⟨r, hr, hmeasure⟩ := hf
  exact ⟨r, hr, fun σ hσ => (hmeasure σ hσ).trans (h σ hσ)⟩

end Extension

section Agreement

theorem Agrees.refl
    (t : Tableau Rat) :
    t.Agrees t :=
  ⟨fun _ => Iff.rfl, fun _ _ _ hf => hf⟩

theorem Agrees.trans
    {t'' : Tableau Rat}
    (h : t.Agrees t')
    (h' : t'.Agrees t'') :
    t.Agrees t'' :=
  ⟨fun σ => (h'.holds_iff σ).trans (h.holds_iff σ),
    fun o f ho hf => h'.measures o f ho (h.measures o f ho hf)⟩

end Agreement

section Changes

theorem eval_substitute_of_eq
    (h : σ s = solved.eval σ) :
    (r.substitute s solved).eval σ = r.eval σ := by
  rw [Row.eval_substitute, h]
  ring

/-- Solving for a symbol adds the equation that it was solved from. -/
theorem holds_solve_iff
    (hs : t.row? s = none)
    (hobjective : s.isObjective = false) :
    ((t.substitute s solved).addRow s solved).Holds σ ↔
      t.Holds σ ∧ σ s = solved.eval σ := by
  have hrows : ∀ i, ((t.substitute s solved).addRow s solved).row? i =
      if i = s then some solved else (t.row? i).map fun r => r.substitute s solved := by
    intro i
    rw [row?_addRow, row?_substitute]
  constructor
  · intro h
    have heq : σ s = solved.eval σ := h s solved (by simp [hrows]) hobjective
    refine ⟨fun b r hb hbo => ?_, heq⟩
    have hbs : b ≠ s := ne_of_row? hb hs
    have hstep := h b (r.substitute s solved) (by simp [hrows, hbs, hb]) hbo
    rwa [eval_substitute_of_eq heq] at hstep
  · rintro ⟨h, heq⟩ b r hb hbo
    rw [hrows] at hb
    split at hb
    · next hbs =>
        cases hb
        rw [hbs, heq]
    · obtain ⟨q, hq, rfl⟩ := Option.map_eq_some_iff.1 hb
      rw [eval_substitute_of_eq heq]
      exact h b q hq hbo

theorem Measures.solve
    (hf : t.Measures o f)
    (hs : t.row? s = none)
    (hobjective : s.isObjective = false) :
    ((t.substitute s solved).addRow s solved).Measures o f := by
  obtain ⟨r, hr, hmeasure⟩ := hf
  have hos : o ≠ s := ne_of_row? hr hs
  refine ⟨r.substitute s solved, ?_, fun σ hσ => ?_⟩
  · rw [row?_addRow, row?_substitute, if_neg hos, hr]
    rfl
  · obtain ⟨hσ, heq⟩ := (holds_solve_iff hs hobjective).1 hσ
    rw [eval_substitute_of_eq heq, hmeasure σ hσ]

/-- A new basic symbol adds the equation of its row. -/
theorem holds_addRow_iff
    (hb : t.row? b = none)
    (hobjective : b.isObjective = false) :
    (t.addRow b row).Holds σ ↔ t.Holds σ ∧ σ b = row.eval σ := by
  constructor
  · intro h
    refine ⟨fun c r hc hco => h c r ?_ hco, h b row ?_ hobjective⟩
    · have hcb : c ≠ b := ne_of_row? hc hb
      rw [row?_addRow, if_neg hcb, hc]
    · rw [row?_addRow, if_pos rfl]
  · rintro ⟨h, heq⟩ c r hc hco
    rcases row?_addRow_eq_some hc with ⟨rfl, rfl⟩ | ⟨_, hc⟩
    · exact heq
    · exact h c r hc hco

theorem holds_addRow_objective
    (hb : t.row? b = none)
    (hobjective : b.isObjective = true) :
    (t.addRow b row).Holds σ ↔ t.Holds σ := by
  constructor
  · intro h c r hc hco
    refine h c r ?_ hco
    have hcb : c ≠ b := ne_of_row? hc hb
    rw [row?_addRow, if_neg hcb, hc]
  · intro h c r hc hco
    rcases row?_addRow_eq_some hc with ⟨rfl, rfl⟩ | ⟨_, hc⟩
    · simp [hobjective] at hco
    · exact h c r hc hco

theorem holds_of_removeRow
    (hremove : t.removeRow b = some (row, t')) :
    t.Holds σ ↔ t'.Holds σ ∧ (b.isObjective = false → σ b = row.eval σ) := by
  obtain ⟨hb, hrows⟩ := row?_of_removeRow hremove
  constructor
  · intro h
    refine ⟨fun c r hc hco => ?_, h b row hb⟩
    exact h c r (row?_of_removeRow_eq_some hremove hc).2 hco
  · rintro ⟨h, heq⟩ c r hc hco
    by_cases hcb : c = b
    · subst hcb
      rw [hb] at hc
      cases hc
      exact heq hco
    · exact h c r (by rw [hrows, if_neg hcb, hc]) hco

theorem eval_without_eq :
    (r.without s).eval σ = r.eval (Function.update σ s 0) := by
  rw [Row.eval_without, Row.eval_update]
  ring

/-- Dropping a nonbasic symbol fixes it at zero. -/
theorem holds_removeColumn_iff
    (hs : t.row? s = none) :
    (t.removeColumn s).Holds σ ↔ t.Holds (Function.update σ s 0) := by
  have hne : ∀ b r, t.row? b = some r → b ≠ s := by
    rintro b r hb rfl
    simp [hs] at hb
  constructor
  · intro h b r hb hbo
    rw [Function.update_of_ne (hne b r hb), ← eval_without_eq]
    exact h b (r.without s) (by simp [row?_removeColumn, hb]) hbo
  · intro h b r hb hbo
    obtain ⟨q, hq, rfl⟩ := row?_removeColumn_eq_some hb
    have hq' := h b q hq hbo
    rwa [Function.update_of_ne (hne b q hq), ← eval_without_eq] at hq'

theorem Measures.removeColumn
    (hf : t.Measures o f)
    (hs : t.row? s = none) :
    (t.removeColumn s).Measures o fun σ => f (Function.update σ s 0) := by
  obtain ⟨r, hr, hmeasure⟩ := hf
  refine ⟨r.without s, by simp [row?_removeColumn, hr], fun σ hσ => ?_⟩
  rw [eval_without_eq]
  exact hmeasure _ ((holds_removeColumn_iff hs).1 hσ)

end Changes

section Soundness

theorem Sound.removeRow
    (h : t.Sound)
    (hremove : t.removeRow b = some (row, t')) :
    t'.Sound where
  toConsistent := h.toConsistent.removeRow hremove
  reduced c r hc := h.reduced c r (row?_of_removeRow_eq_some hremove hc).2

theorem Sound.removeColumn
    (h : t.Sound)
    (s : Symbol) :
    (t.removeColumn s).Sound where
  toConsistent := h.toConsistent.removeColumn s
  reduced c r hc := by
    obtain ⟨q, hq, rfl⟩ := row?_removeColumn_eq_some hc
    exact (h.reduced c q hq).without

theorem Sound.solve
    (h : t.Sound)
    (hs : t.row? s = none)
    (hself : s ∉ solved.symbols)
    (hrow : t.Nonbasic solved)
    (hreduced : solved.Reduced) :
    ((t.substitute s solved).addRow s solved).Sound where
  toConsistent := h.toConsistent.solve hs hself hrow
  reduced c r hc := by
    rw [row?_addRow, row?_substitute] at hc
    split at hc
    · cases hc
      exact hreduced
    · obtain ⟨q, hq, rfl⟩ := Option.map_eq_some_iff.1 hc
      exact (h.reduced c q hq).substitute

theorem Sound.addTermTo
    (h : t.Sound)
    (hs : t.row? s = none)
    (k : Rat) :
    (t.addTermTo b s k).Sound where
  toConsistent := h.toConsistent.addTermTo hs k
  reduced c r hc := by
    rcases row?_addTermTo_eq_some hc with ⟨_, q, hq, rfl⟩ | ⟨_, hc⟩
    · exact (h.reduced b q hq).addTerm
    · exact h.reduced c r hc

theorem Sound.addRowTo
    {other : Row Rat}
    (h : t.Sound)
    (hother : t.Nonbasic other)
    (k : Rat) :
    (t.addRowTo b other k).Sound where
  toConsistent := h.toConsistent.addRowTo hother k
  reduced c r hc := by
    rcases row?_addRowTo_eq_some hc with ⟨_, q, hq, rfl⟩ | ⟨_, hc⟩
    · exact (h.reduced b q hq).addRow
    · exact h.reduced c r hc

theorem Sound.pivot
    (h : t.Sound)
    (hl : t.row? leaving = some row)
    (he : entering ∈ row.symbols) :
    (t.pivot entering leaving).Sound where
  toConsistent := h.toConsistent.pivot hl he
  reduced c r hc := by
    rcases row?_pivot_eq_some hl hc with ⟨_, rfl⟩ | ⟨_, _, q, hq, rfl⟩
    · exact (h.reduced leaving row hl).exchange he
    · exact (h.reduced c q hq).substitute

end Soundness

section Pivots

/-- Both forms of an exchanged row are the same equation. -/
theorem exchange_eq_iff
    (hreduced : row.Reduced)
    (he : entering ∈ row.symbols)
    (hl : leaving ∉ row.symbols) :
    σ entering = (row.exchange leaving entering).eval σ ↔ σ leaving = row.eval σ := by
  have hne := hreduced.coefficient_ne_zero he
  rw [Row.eval_exchange he hl, eq_div_iff hne]
  constructor
  · intro h
    linear_combination -h
  · intro h
    linear_combination -h

/-- A pivot rewrites the equations of a tableau, and no solution comes or goes. -/
theorem Sound.agrees_pivot
    (h : t.Sound)
    (hl : t.row? leaving = some row)
    (he : entering ∈ row.symbols)
    (hleaving : leaving.isObjective = false)
    (hentering : entering.isObjective = false) :
    t.Agrees (t.pivot entering leaving) := by
  have hexchange : ∀ σ : Assignment,
      σ entering = (row.exchange leaving entering).eval σ ↔ σ leaving = row.eval σ :=
    fun σ => exchange_eq_iff (h.reduced _ _ hl) he (h.not_mem_of_row? hl hl)
  obtain ⟨rest, hrest⟩ := removeRow_of_row? hl
  have hne : entering ≠ leaving := by
    rintro rfl
    exact h.not_mem_of_row? hl hl he
  have hnone : rest.row? entering = none := by
    rw [(row?_of_removeRow hrest).2, if_neg hne]
    exact h.nonbasic hl entering he
  have hholds : ∀ σ, (t.pivot entering leaving).Holds σ ↔ t.Holds σ := by
    intro σ
    simp only [Tableau.pivot, hrest]
    rw [holds_solve_iff hnone hentering, holds_of_removeRow hrest, hexchange]
    simp [hleaving]
  refine ⟨hholds, fun o f ho hf => ?_⟩
  obtain ⟨r, hr, hmeasure⟩ := hf
  have hoe : o ≠ entering := (Symbol.ne_of_isObjective hentering ho).symm
  have hol : o ≠ leaving := (Symbol.ne_of_isObjective hleaving ho).symm
  refine ⟨r.substitute entering (row.exchange leaving entering), ?_, fun σ hσ => ?_⟩
  · rw [row?_pivot hl, if_neg hoe, if_neg hol, hr]
    rfl
  · have hσt := (hholds σ).1 hσ
    rw [eval_substitute_of_eq ((hexchange σ).2 (hσt leaving row hl hleaving)), hmeasure σ hσt]

end Pivots

end Tableau
end LinearLayout
