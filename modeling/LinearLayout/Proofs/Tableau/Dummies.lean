import LinearLayout.Proofs.Tableau.Retraction

/-!
# Rows of dummies

A dummy becomes basic only where an equality follows from others, and then its row is a
combination of their dummies without a constant.  No slack ever comes into such a row, because
minimisations pivot on slacks alone.  A removal keeps this too, as long as the removed marker
stands in no row of a dummy.
-/

namespace LinearLayout

namespace Tableau

variable {t t' : Tableau Rat} {b s subject artificial goal marker entering leaving : Symbol}
variable {row r : Row Rat} {markers : Markers} {k : Rat} {further : Nat} {σ : Assignment}

/-- Basic dummies read zero and are written in other dummies. -/
def Grounded (t : Tableau Rat) : Prop :=
  ∀ b r, t.row? b = some r → b.isDummy = true →
    r.constant = 0 ∧ ∀ s ∈ r.symbols, s.isDummy = true

theorem Grounded.reading_eq_zero
    (h : t.Grounded)
    (hs : s.isDummy = true) :
    t.reading s = 0 := by
  cases hrow : t.row? s with
  | none =>
      exact reading_of_nonbasic hrow
  | some r =>
      rw [reading_of_row? hrow]
      exact (h s r hrow hs).1

theorem Grounded.not_mem
    (h : t.Grounded)
    (hb : t.row? b = some r)
    (hbd : b.isDummy = true)
    (hs : s.isDummy = false) :
    s ∉ r.symbols := by
  intro hmem
  rw [(h b r hb hbd).2 s hmem] at hs
  cases hs

/-- A dummy that is nonzero where all others are zero stands in no row of a dummy. -/
theorem Grounded.not_mem_of_holds
    (h : t.Grounded)
    (hsound : t.Sound)
    (hσ : t.Holds σ)
    (hothers : ∀ x : Symbol, x.isDummy = true → x ≠ s → σ x = 0)
    (hs : σ s ≠ 0)
    (hb : t.row? b = some r)
    (hbd : b.isDummy = true) :
    s ∉ r.symbols := by
  intro hmem
  obtain ⟨hconstant, hdummies⟩ := h b r hb hbd
  have hbs : b ≠ s := by
    rintro rfl
    exact hsound.not_mem_of_row? hb hb hmem
  have heval : r.eval σ = r.eval (Function.update 0 s (σ s)) := by
    refine Row.eval_congr fun x hx => ?_
    rw [Function.update_apply]
    split
    · next hxs => rw [hxs]
    · next hxs => exact hothers x (hdummies x hx) hxs
  have hrow := hσ b r hb (Symbol.isObjective_of_isDummy hbd)
  rw [hothers b hbd hbs, heval, Row.eval_single, hconstant, zero_add] at hrow
  exact mul_ne_zero ((hsound.reduced b r hb).coefficient_ne_zero hmem) hs hrow.symm

/-- Only the rows of dummies matter. -/
theorem Grounded.of_rows
    (h : t.Grounded)
    (hrows : ∀ b r, b.isDummy = true → t'.row? b = some r → t.row? b = some r) :
    t'.Grounded :=
  fun b r hb hbd => h b r (hrows b r hbd hb) hbd

theorem Grounded.removeRow
    (h : t.Grounded)
    (hremove : t.removeRow b = some (row, t')) :
    t'.Grounded :=
  h.of_rows fun _ _ _ hc => (row?_of_removeRow_eq_some hremove hc).2

theorem Grounded.removeColumn
    (h : t.Grounded)
    (s : Symbol) :
    (t.removeColumn s).Grounded := by
  intro b r hb hbd
  obtain ⟨q, hq, rfl⟩ := row?_removeColumn_eq_some hb
  obtain ⟨hconstant, hdummy⟩ := h b q hq hbd
  exact ⟨hconstant, fun i hi => hdummy i (Row.mem_symbols_without.1 hi).2⟩

theorem Grounded.addRow
    (h : t.Grounded)
    (hb : b.isDummy = false) :
    (t.addRow b row).Grounded := by
  refine h.of_rows fun c r hcd hc => ?_
  rcases row?_addRow_eq_some hc with ⟨rfl, _⟩ | ⟨_, hc⟩
  · rw [hb] at hcd
    cases hcd
  · exact hc

/-- A symbol that enters and is no dummy stands in no row of a dummy. -/
theorem Grounded.pivot
    (h : t.Grounded)
    (hl : t.row? leaving = some row)
    (he : entering.isDummy = false) :
    (t.pivot entering leaving).Grounded := by
  refine h.of_rows fun b r hbd hb => ?_
  rcases row?_pivot_eq_some hl hb with ⟨rfl, _⟩ | ⟨_, _, q, hq, rfl⟩
  · rw [he] at hbd
    cases hbd
  · rw [Row.substitute_of_not_mem (h.not_mem hq hbd he)]
    exact hq

theorem Grounded.minimise
    (h : t.Grounded)
    (o : Symbol)
    (further : Nat) :
    (t.minimise o further).1.Grounded := by
  refine minimise_induction (fun t entering leaving h he hl => ?_) further h
  obtain ⟨_, _, _, _, hentering, _⟩ := exists_of_entering? he
  obtain ⟨_, _, row, hrow, _⟩ := exists_of_leaving? hl
  exact h.pivot hrow (Symbol.isDummy_eq_false_of_isSlack hentering)

/-- A row is solved for a dummy only if it is a combination of dummies. -/
theorem Grounded.install_of_chooseEntry
    (h : t.Grounded)
    (hconsistent : t.Consistent)
    (hchoice : t.chooseEntry row = .solveFor subject) :
    (t.install subject row).Grounded := by
  have hunmentioned : ∀ b q, t.row? b = some q → b.isDummy = true → subject ∉ q.symbols := by
    obtain ⟨_, hfree | ⟨_, hunreferenced, _⟩⟩ := chooseEntry_eq_solveFor hchoice
    · exact fun b q hq hbd => h.not_mem hq hbd (Symbol.isDummy_eq_false_of_isFree hfree)
    · exact fun b q hq _ => hconsistent.not_mem_of_isReferenced hunreferenced b q hq
  intro b r hb hbd
  rcases row?_install_eq_some hb with ⟨rfl, rfl⟩ | ⟨_, q, hq, rfl⟩
  · obtain ⟨hmem, hfree | ⟨_, _, ⟨hslack, _⟩ | ⟨hdummy, hzero⟩⟩⟩ :=
      chooseEntry_eq_solveFor hchoice
    · rw [Symbol.isDummy_eq_false_of_isFree hfree] at hbd
      cases hbd
    · rw [Symbol.isDummy_eq_false_of_isSlack hslack] at hbd
      cases hbd
    · rw [Row.constant_solveFor hmem, (Scalar.isNegligible_rat _).1 hzero]
      exact ⟨by simp, fun i hi => hdummy i (Row.mem_symbols_solveFor.1 hi).2⟩
  · rw [Row.substitute_of_not_mem (hunmentioned b q hq hbd)]
    exact h b q hq hbd

theorem Grounded.tryAccept
    (h : t.Grounded)
    (hartificial : artificial.isSlack = true)
    (hgoal : goal.isObjective = true)
    (haccept : (t.tryAccept row artificial goal further).1 = some t') :
    t'.Grounded := by
  obtain ⟨reached, rest, hremove, _, hdrop⟩ := tryAccept_eq_some haccept
  have hfirst : (t.withArtificial row artificial goal).Grounded :=
    (h.addRow (Symbol.isDummy_eq_false_of_isObjective hgoal)).addRow
      (Symbol.isDummy_eq_false_of_isSlack hartificial)
  have hrest := (hfirst.minimise goal further).removeRow hremove
  rcases dropArtificial_eq_some hdrop with
    ⟨_, rfl⟩ | ⟨_, _, hremove⟩ | ⟨row', entering, hrow', _, hentering, rfl⟩
  · exact hrest.removeColumn artificial
  · exact hrest.removeRow hremove
  · exact (hrest.pivot hrow' (Symbol.isDummy_eq_false_of_isSlack hentering)).removeColumn
      artificial

theorem row?_chargeAll_of_ne
    (hb : b ≠ .objective) :
    (t.chargeAll markers k).row? b = t.row? b :=
  chargeAll_induction (P := fun u => u.row? b = t.row? b)
    (fun _ _ h _ => (row?_charge_of_ne hb).trans h) rfl

theorem row?_chargeAll_of_isDummy
    (hb : b.isDummy = true) :
    (t.chargeAll markers k).row? b = t.row? b :=
  row?_chargeAll_of_ne (Symbol.ne_of_isObjective
    (Symbol.isObjective_of_isDummy hb) rfl)

theorem Grounded.chargeAll
    (h : t.Grounded)
    (markers : Markers)
    (k : Rat) :
    (t.chargeAll markers k).Grounded := by
  refine h.of_rows fun b r hbd hb => ?_
  rwa [row?_chargeAll_of_isDummy hbd] at hb

theorem Grounded.deleteMarker
    (h : t.Grounded)
    (hconsistent : t.Consistent)
    (hunmentioned : ∀ b r, t.row? b = some r → b.isDummy = true → marker ∉ r.symbols) :
    (t.deleteMarker marker).Grounded := by
  rcases hconsistent.deleteMarker_cases marker with
    ⟨row, hremove⟩ | ⟨leaving, row, solved, _, hrow, _, hremove⟩ | ⟨_, _, hcolumn⟩
  · exact h.removeRow hremove
  · refine h.of_rows fun b r hbd hb => ?_
    obtain ⟨hbm, hb⟩ := row?_of_removeRow_eq_some hremove hb
    rcases row?_pivot_eq_some hrow hb with ⟨hbm', _⟩ | ⟨_, _, q, hq, rfl⟩
    · exact absurd hbm' hbm
    · rw [Row.substitute_of_not_mem (hunmentioned b q hq hbd)]
      exact hq
  · rw [hcolumn]
    exact h.removeColumn marker

theorem Grounded.retract
    {weight : Rat}
    (h : t.Grounded)
    (hconsistent : t.Consistent)
    (hunmentioned : ∀ b r, t.row? b = some r → b.isDummy = true → markers.marker ∉ r.symbols) :
    (t.retract markers weight).Grounded := by
  refine retract_induction (fun _ error h _ _ => h.removeColumn error) ?_
  refine (h.chargeAll markers (-weight)).deleteMarker (hconsistent.chargeAll markers (-weight))
    fun b r hb hbd => ?_
  rw [row?_chargeAll_of_isDummy hbd] at hb
  exact hunmentioned b r hb hbd

end Tableau
end LinearLayout
