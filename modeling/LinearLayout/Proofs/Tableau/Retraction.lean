import LinearLayout.Proofs.Markers
import LinearLayout.Proofs.Tableau.Acceptance
import LinearLayout.Proofs.Tableau.Removal

/-!
# Retracted rows

A symbol that occurs in one equation only carries that equation alone.  Solving for it and
deleting its row leaves the solutions of all other equations, and the two-sided ratio test leaves
a feasible tableau.

What the others say is given by a condition and a quantity that do not look at the symbols of the
retracted equation.
-/

namespace LinearLayout

/-- The function does not look at a symbol. -/
def Ignores {α : Type} (s : Symbol) (g : Assignment → α) : Prop :=
  ∀ σ x, g (Function.update σ s x) = g σ

/-- The function looks at restricted symbols only. -/
def OfRestricted {α : Type} (g : Assignment → α) : Prop :=
  ∀ σ τ : Assignment, (∀ s : Symbol, s.isRestricted = true → σ s = τ s) → g σ = g τ

/-- Two assignments that differ at one symbol look alike to a function that ignores it. -/
theorem Ignores.eq_of_eq_on
    {α : Type} {s : Symbol} {g : Assignment → α} {σ τ : Assignment}
    (h : Ignores s g)
    (hg : OfRestricted g)
    (heq : ∀ i : Symbol, i.isRestricted = true → i ≠ s → σ i = τ i) :
    g σ = g τ := by
  rw [← h σ (τ s)]
  refine hg _ _ fun i hi => ?_
  rw [Function.update_apply]
  split
  · next his => rw [his]
  · next his => exact heq i hi his

namespace Tableau

variable {t t' : Tableau Rat} {b s marker leaving : Symbol} {row r solved : Row Rat}
variable {σ : Assignment} {E : Assignment → Prop} {q f : Assignment → Rat}

section Solutions

/-- Once its equation has been solved for a symbol of its own, its row can go. -/
theorem Consistent.removeRow_spec
    (h : t.Consistent)
    (hmarker : marker.isObjective = false)
    (hholds : ∀ σ, t.Holds σ ↔ E σ ∧ σ marker = q σ)
    (hE : Ignores marker E)
    (hq : Ignores marker q)
    (hremove : t.removeRow marker = some (row, t')) :
    (∀ σ, t'.Holds σ ↔ E σ) ∧
      (Ignores marker f → t.Measures .objective f → t'.Measures .objective f) := by
  have hfresh := h.fresh_of_removeRow hremove
  have hstep : ∀ σ, t'.Holds σ → E σ := by
    intro σ hσ
    have hup : t.Holds (Function.update σ marker (row.eval σ)) := by
      refine (holds_of_removeRow hremove).2 ⟨hfresh.holds_update_iff.2 hσ, fun _ => ?_⟩
      have hself := h.not_mem_of_row? (row?_of_removeRow hremove).1 (row?_of_removeRow hremove).1
      rw [Function.update_self, Row.eval_update_of_not_mem hself]
    rw [← hE σ (row.eval σ)]
    exact ((hholds _).1 hup).1
  have hlift : ∀ σ, E σ → t.Holds (Function.update σ marker (q σ)) := by
    intro σ hσ
    refine (hholds _).2 ⟨?_, ?_⟩
    · rw [hE]
      exact hσ
    · rw [Function.update_self, hq]
  refine ⟨fun σ => ⟨hstep σ, fun hσ => ?_⟩, fun hf hmeasures => ?_⟩
  · exact hfresh.holds_update_iff.1 ((holds_of_removeRow hremove).1 (hlift σ hσ)).1
  · obtain ⟨r, hr, hmeasure⟩ := hmeasures
    have hne : Symbol.objective ≠ marker := by
      rintro rfl
      cases hmarker
    have hr' : t'.row? .objective = some r := by
      rw [(row?_of_removeRow hremove).2, if_neg hne, hr]
    refine ⟨r, hr', fun σ hσ => ?_⟩
    rw [← hf σ (q σ), ← hmeasure _ (hlift σ (hstep σ hσ)),
      Row.eval_update_of_not_mem (hfresh.2 _ r hr')]

/-- A marker that its equation fixes occurs in some row that states something. -/
theorem Consistent.exit?_ne_none
    (h : t.Consistent)
    (hholds : ∀ σ, t.Holds σ ↔ E σ ∧ σ marker = q σ)
    (hq : Ignores marker q)
    (hnone : t.row? marker = none) :
    t.exit? marker ≠ none := by
  intro hexit
  -- Only objectives mention the marker, so it can be moved away from its value.
  have hmoved : t.Holds (Function.update (t.extend 0) marker (t.extend 0 marker + 1)) := by
    intro b r hb hbo
    have hbm : b ≠ marker := ne_of_row? hb hnone
    have hunmentioned : marker ∉ r.symbols := by
      intro hmem
      have hcolumn : b ∈ t.column marker := (h.mem_column_iff marker b).2 ⟨r, hb, hmem⟩
      rw [isObjective_of_exit?_eq_none hexit hcolumn hb] at hbo
      cases hbo
    rw [Function.update_of_ne hbm, Row.eval_update_of_not_mem hunmentioned]
    exact holds_extend h 0 b r hb hbo
  have hvalue := ((hholds _).1 (holds_extend h 0)).2
  have hmovedValue := ((hholds _).1 hmoved).2
  rw [Function.update_self, hq, ← hvalue] at hmovedValue
  linarith

/-- Deleting a marker removes its equation and nothing else. -/
theorem Sound.deleteMarker_spec
    (h : t.Sound)
    (hmarker : marker.isObjective = false)
    (hholds : ∀ σ, t.Holds σ ↔ E σ ∧ σ marker = q σ)
    (hE : Ignores marker E)
    (hq : Ignores marker q)
    (hf : Ignores marker f)
    (hmeasures : t.Measures .objective f) :
    (t.deleteMarker marker).Sound ∧ (∀ σ, (t.deleteMarker marker).Holds σ ↔ E σ) ∧
      (t.deleteMarker marker).Measures .objective f := by
  rcases h.deleteMarker_cases marker with
    ⟨row, hremove⟩ | ⟨leaving, row, solved, hexit, hrow, hmem, hremove⟩ | ⟨hnone, hexit, _⟩
  · obtain ⟨hholds', hmeasures'⟩ :=
      h.toConsistent.removeRow_spec hmarker hholds hE hq hremove
    exact ⟨h.removeRow hremove, hholds', hmeasures' hf hmeasures⟩
  · have hagrees := h.agrees_pivot hrow hmem (mem_column_of_exit? hexit).2 hmarker
    have hpivot := h.pivot hrow hmem
    obtain ⟨hholds', hmeasures'⟩ := hpivot.toConsistent.removeRow_spec hmarker
      (fun σ => (hagrees.holds_iff σ).trans (hholds σ)) hE hq hremove
    exact ⟨hpivot.removeRow hremove, hholds',
      hmeasures' hf (hagrees.measures .objective f rfl hmeasures)⟩
  · exact absurd hexit (h.toConsistent.exit?_ne_none hholds hq hnone)

end Solutions

section Feasibility

/-- A pivot whose entering symbol goes at once need not keep that symbol's own row in order. -/
theorem Feasible.pivot_removeRow
    (h : t.Feasible)
    (hsound : t.Sound)
    (hl : t.row? leaving = some row)
    (hm : marker ∈ row.symbols)
    (hleaving : leaving.isObjective = false)
    (hremove : (t.pivot marker leaving).removeRow marker = some (solved, t'))
    (hfree : ∀ b r, t.row? b = some r → b.isFree = false → marker ∈ r.symbols →
      leaving.isFree = false)
    (hothers : ∀ b r, t.row? b = some r → b.isRestricted = true →
      0 ≤ r.constant + r.coefficient marker * (-row.constant / row.coefficient marker)) :
    t'.Feasible := by
  have hself := hsound.not_mem_of_row? hl hl
  have hinverse : ∀ b r, t'.row? b = some r →
      ∃ p, t.row? b = some p ∧ r = p.substitute marker (row.exchange leaving marker) := by
    intro b r hb
    obtain ⟨hbm, hb⟩ := row?_of_removeRow_eq_some hremove hb
    rcases row?_pivot_eq_some hl hb with ⟨hbm', _⟩ | ⟨_, _, p, hp, hr⟩
    · exact absurd hbm' hbm
    · exact ⟨p, hp, hr⟩
  refine ⟨fun b r hb hbr => ?_, fun b r hb => ?_, fun b r hb hbf => ?_⟩
  · obtain ⟨p, hp, rfl⟩ := hinverse b r hb
    rw [Row.constant_substitute, Row.constant_exchange hm hself]
    exact hothers b p hp hbr
  · obtain ⟨p, hp, rfl⟩ := hinverse b r hb
    exact h.not_objective_substitute hp (h.not_objective_exchange hl hleaving)
  · obtain ⟨p, hp, rfl⟩ := hinverse b r hb
    exact h.not_free_substitute hp hbf fun hmp => h.not_free_exchange hl (hfree b p hp hbf hmp)

/-- No restricted row falls below zero where the positive row of least ratio is taken. -/
theorem Feasible.constant_nonneg_of_support
    (h : t.Feasible)
    (hsound : t.Sound)
    {c : Candidate Rat}
    (hneg : (t.column marker).filterMap (t.bound? marker) = [])
    (hc : bestOf ((t.column marker).filterMap (t.support? marker)) = some c)
    (hl : t.row? c.symbol = some row)
    (hb : t.row? b = some r)
    (hr : b.isRestricted = true) :
    0 ≤ r.constant + r.coefficient marker * (-row.constant / row.coefficient marker) := by
  have hconstant := h.constant_nonneg b r hb hr
  have hratio : c.ratio = row.constant / row.coefficient marker := by
    obtain ⟨i, _, hsupport⟩ := List.mem_filterMap.1 (mem_of_bestOf hc)
    obtain ⟨_, row', hrow', _, rfl⟩ := support?_eq_some hsupport
    rw [hl] at hrow'
    cases hrow'
    rfl
  by_cases hm : marker ∈ r.symbols
  · have hcolumn : b ∈ t.column marker := (hsound.mem_column_iff marker b).2 ⟨r, hb, hm⟩
    have hge := hsound.coefficient_nonneg hneg hb hr
    have hpos : 0 < r.coefficient marker :=
      lt_of_le_of_ne hge ((hsound.reduced b r hb).coefficient_ne_zero hm).symm
    have hcandidate : (⟨r.constant / r.coefficient marker, b⟩ : Candidate Rat) ∈
        (t.column marker).filterMap (t.support? marker) := by
      refine List.mem_filterMap.2 ⟨b, hcolumn, ?_⟩
      simp [support?, hr, hb, hge, Scalar.less]
    have hle : row.constant / row.coefficient marker ≤ r.constant / r.coefficient marker := by
      rw [← hratio]
      exact (Candidate.ratio_le_of_foldl_least hc).2 _ hcandidate
    have hmul := (le_div_iff₀' hpos).1 hle
    rw [neg_div, mul_neg]
    linarith
  · rw [Row.coefficient_of_not_mem hm, zero_mul, add_zero]
    exact hconstant

/-- An objective that measures restricted symbols other than the marker does not mention it. -/
theorem Sound.not_mem_objective
    (h : t.Sound)
    (hunmentioned : ∀ b r, t.row? b = some r → b.isRestricted = true → marker ∉ r.symbols)
    (hf : Ignores marker f)
    (hrestricted : OfRestricted f)
    (hmeasures : t.Measures .objective f)
    (hr : t.row? .objective = some r) :
    marker ∉ r.symbols := by
  refine (h.reduced _ r hr).not_mem_of_coefficient ?_
  rw [Row.coefficient_eq_eval, hmeasures.eval_eq h.toConsistent hr,
    hmeasures.eval_eq h.toConsistent hr, sub_eq_zero]
  refine hf.eq_of_eq_on hrestricted fun i hi him => ?_
  cases hrow : t.row? i with
  | none =>
      rw [extend_of_nonbasic hrow, extend_of_nonbasic hrow, Function.update_of_ne him]
  | some p =>
      rw [extend_of_row? hrow, extend_of_row? hrow,
        Row.eval_update_of_not_mem (hunmentioned i p hrow hi)]

/-- Deleting a marker keeps a tableau feasible. -/
theorem Feasible.deleteMarker
    (h : t.Feasible)
    (hsound : t.Sound)
    (hordinary : t.Within Symbol.Ordinary)
    (hf : Ignores marker f)
    (hrestricted : OfRestricted f)
    (hmeasures : t.Measures .objective f)
    (hexit : t.row? marker = none → t.exit? marker ≠ none) :
    (t.deleteMarker marker).Feasible := by
  rcases hsound.deleteMarker_cases marker with
    ⟨row, hremove⟩ | ⟨leaving, row, solved, hleaving, hrow, hmem, hremove⟩ | ⟨hnone, hno, _⟩
  · exact h.removeRow hremove
  · have hnone : t.row? marker = none := hsound.nonbasic hrow marker hmem
    rcases exit?_eq_some hleaving with ⟨c, hc, hsymbol⟩ | ⟨hneg, c, hc, hsymbol⟩ |
      ⟨hneg, hpos, _, hlo, hlr⟩
    · have hl : t.leaving? marker = some leaving := Option.map_eq_some_iff.2 ⟨c, hc, hsymbol⟩
      exact (h.pivot_leaving? hsound hl).removeRow hremove
    · obtain ⟨i, _, hsupport⟩ := List.mem_filterMap.1 (mem_of_bestOf hc)
      obtain ⟨hr, _, _, _, rfl⟩ := support?_eq_some hsupport
      subst hsymbol
      obtain ⟨hlf, hlo⟩ := Symbol.isRestricted_iff.1 hr
      refine h.pivot_removeRow hsound hrow hmem hlo hremove (fun _ _ _ _ _ => hlf) ?_
      exact fun b r hb hbr => h.constant_nonneg_of_support hsound hneg hc hrow hb hbr
    · have hunmentioned : ∀ b r, t.row? b = some r → b.isRestricted = true →
          marker ∉ r.symbols := by
        intro b r hb hbr hm
        have hcolumn : b ∈ t.column marker := (hsound.mem_column_iff marker b).2 ⟨r, hb, hm⟩
        rw [not_isRestricted_of_filterMap_eq_nil hneg hpos hcolumn hb] at hbr
        cases hbr
      refine h.pivot_removeRow hsound hrow hmem hlo hremove ?_ fun b r hb hbr => ?_
      · intro b r hb hbf hm
        cases hbo : b.isObjective with
        | false =>
            exact absurd hm (hunmentioned b r hb (Symbol.isRestricted_iff.2 ⟨hbf, hbo⟩))
        | true =>
            rw [(hordinary b r hb).1 hbo] at hb
            exact absurd hm
              (hsound.not_mem_objective hunmentioned hf hrestricted hmeasures hb)
      · rw [Row.coefficient_of_not_mem (hunmentioned b r hb hbr), zero_mul, add_zero]
        exact h.constant_nonneg b r hb hbr
  · exact absurd hno (hexit hnone)

end Feasibility

section Errors

/-- A symbol that neither the solutions nor the objective look at is not in the tableau. -/
theorem Sound.fresh_of_ignores
    (h : t.Sound)
    (hs : s.isObjective = false)
    (hordinary : t.Within Symbol.Ordinary)
    (hholds : ∀ σ, t.Holds σ ↔ E σ)
    (hE : Ignores s E)
    (hf : Ignores s f)
    (hmeasures : t.Measures .objective f) :
    t.Fresh s := by
  have hmove : ∀ σ x, t.Holds σ → t.Holds (Function.update σ s x) := by
    intro σ x hσ
    rw [hholds, hE, ← hholds]
    exact hσ
  have hsolution := holds_extend h.toConsistent 0
  have hnone : t.row? s = none := by
    cases hrow : t.row? s with
    | none =>
        rfl
    | some r =>
        have hself := h.not_mem_of_row? hrow hrow
        have hvalue := hsolution s r hrow hs
        have hmoved := hmove _ (t.extend 0 s + 1) hsolution s r hrow hs
        rw [Function.update_self, Row.eval_update_of_not_mem hself, ← hvalue] at hmoved
        linarith
  refine ⟨hnone, fun b r hb => (h.reduced b r hb).not_mem_of_coefficient ?_⟩
  have hmoved := hmove _ (t.extend 0 s + 1) hsolution
  have hsame : r.eval (Function.update (t.extend 0) s (t.extend 0 s + 1)) =
      r.eval (t.extend 0) := by
    cases hbo : b.isObjective with
    | false =>
        have hbs : b ≠ s := ne_of_row? hb hnone
        rw [← hmoved b r hb hbo, ← hsolution b r hb hbo, Function.update_of_ne hbs]
    | true =>
        rw [(hordinary b r hb).1 hbo] at hb
        obtain ⟨p, hp, hmeasure⟩ := hmeasures
        rw [hb] at hp
        cases hp
        rw [hmeasure _ hmoved, hmeasure _ hsolution, hf]
  rw [Row.eval_update] at hsame
  linarith

/-- Dropping a symbol that occurs nowhere changes no row. -/
theorem Fresh.row?_removeColumn
    (h : t.Fresh s) :
    (t.removeColumn s).row? b = t.row? b := by
  rw [Tableau.row?_removeColumn]
  cases hb : t.row? b with
  | none =>
      rfl
  | some r =>
      rw [Option.map_some, Row.without_of_not_mem (h.2 b r hb)]

theorem Fresh.holds_removeColumn_iff
    (h : t.Fresh s) :
    (t.removeColumn s).Holds σ ↔ t.Holds σ := by
  unfold Holds
  simp only [h.row?_removeColumn]

theorem Fresh.measures_removeColumn
    (h : t.Fresh s)
    (hf : t.Measures b f) :
    (t.removeColumn s).Measures b f := by
  obtain ⟨r, hr, hmeasure⟩ := hf
  refine ⟨r, by rw [h.row?_removeColumn, hr], fun σ hσ => hmeasure σ ?_⟩
  exact h.holds_removeColumn_iff.1 hσ

/-- Taking an equation out leaves what the other equations say and what they cost. -/
theorem retract_spec
    {markers : Markers} {weight : Rat}
    (hsound : t.Sound)
    (hfeasible : t.Feasible)
    (hordinary : t.Within Symbol.Ordinary)
    (hproper : markers.Proper)
    (hholds : ∀ σ, t.Holds σ ↔ E σ ∧ σ markers.marker = q σ)
    (hmeasures : t.Measures .objective fun σ => f σ + weight * markers.errorSum σ)
    (hE : ∀ s ∈ markers.symbols, Ignores s E)
    (hq : Ignores markers.marker q)
    (hf : ∀ s ∈ markers.symbols, Ignores s f)
    (hrestricted : OfRestricted f) :
    (t.retract markers weight).Sound ∧ (t.retract markers weight).Feasible ∧
      (∀ σ, (t.retract markers weight).Holds σ ↔ E σ) ∧
      (t.retract markers weight).Measures .objective f := by
  have hmarker := hproper.isObjective markers.marker_mem_symbols
  obtain ⟨hsound₁, hfeasible₁, hholds₁, hmeasures₁⟩ := chargeAll_spec hsound hfeasible hmeasures
    (fun e he => hproper.isRestricted_of_mem_errors he) (-weight)
  replace hmeasures₁ := hmeasures₁.congr (g := f) fun σ _ => by ring
  have hholds₂ : ∀ σ, (t.chargeAll markers (-weight)).Holds σ ↔ E σ ∧ σ markers.marker = q σ :=
    fun σ => (hholds₁ σ).trans (hholds σ)
  have hordinary₁ : (t.chargeAll markers (-weight)).Within Symbol.Ordinary :=
    hordinary.chargeAll (fun e he => hproper.ordinary (Markers.mem_symbols_of_mem_errors he))
      (-weight)
  have hE₁ := hE _ markers.marker_mem_symbols
  have hf₁ := hf _ markers.marker_mem_symbols
  obtain ⟨hsound₂, hholds₃, hmeasures₂⟩ :=
    hsound₁.deleteMarker_spec hmarker hholds₂ hE₁ hq hf₁ hmeasures₁
  have hfeasible₂ := hfeasible₁.deleteMarker hsound₁ hordinary₁ hf₁ hrestricted hmeasures₁
    (hsound₁.toConsistent.exit?_ne_none hholds₂ hq)
  refine (retract_induction (P := fun u => u.Within Symbol.Ordinary ∧ u.Sound ∧ u.Feasible ∧
    (∀ σ, u.Holds σ ↔ E σ) ∧ u.Measures .objective f) ?_
    ⟨hordinary₁.deleteMarker hsound₁.toConsistent _, hsound₂, hfeasible₂, hholds₃, hmeasures₂⟩).2
  rintro u error ⟨hordinary', hsound', hfeasible', hholds', hmeasures'⟩ he _
  have hmem := Markers.mem_symbols_of_mem_errors he
  have hfresh := hsound'.fresh_of_ignores (hproper.isObjective hmem) hordinary' hholds'
    (hE error hmem) (hf error hmem) hmeasures'
  exact ⟨hordinary'.removeColumn error, hsound'.removeColumn error,
    hfeasible'.removeColumn error,
    fun σ => hfresh.holds_removeColumn_iff.trans (hholds' σ),
    hfresh.measures_removeColumn hmeasures'⟩

end Errors

end Tableau
end LinearLayout
