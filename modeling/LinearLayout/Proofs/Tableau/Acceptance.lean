import LinearLayout.Proofs.Tableau.Feasible
import LinearLayout.Proofs.Tableau.Insertion

/-!
# Accepted rows

Over the rationals a row comes into a tableau exactly: the solutions afterwards are those earlier
solutions at which the row is zero, whether the row was solved for a symbol of its own or an
artificial symbol was brought to zero.  Charging an error leaves the solutions alone and adds the
error to what the objective measures.
-/

namespace LinearLayout

/-- The errors of an equation, added up. -/
def Markers.errorSum (markers : Markers) (σ : Assignment) : Rat :=
  (markers.errors.map σ).sum

namespace Tableau

variable {t t' : Tableau Rat} {row r : Row Rat} {σ : Assignment} {f : Assignment → Rat}
variable {b o s subject artificial goal error : Symbol} {further : Nat} {k x : Rat}

section Direct

theorem solveFor_eq_iff
    (hreduced : row.Reduced)
    (hs : subject ∈ row.symbols) :
    σ subject = (row.solveFor subject).eval σ ↔ row.eval σ = 0 := by
  have hne := hreduced.coefficient_ne_zero hs
  rw [Row.eval_solveFor hs, eq_div_iff hne]
  constructor
  · intro h
    linear_combination h
  · intro h
    linear_combination h

theorem Sound.install
    (h : t.Sound)
    (hs : subject ∈ row.symbols)
    (hrow : t.Nonbasic row)
    (hreduced : row.Reduced) :
    (t.install subject row).Sound :=
  h.solve (hrow subject hs) (by simp)
    (fun i hi => hrow i (Row.mem_symbols_solveFor.1 hi).2) (hreduced.solveFor hs)

/-- A row that is solved for one of its symbols is from then on zero. -/
theorem holds_install_iff
    (hs : subject ∈ row.symbols)
    (hrow : t.Nonbasic row)
    (hreduced : row.Reduced)
    (hobjective : subject.isObjective = false) :
    (t.install subject row).Holds σ ↔ t.Holds σ ∧ row.eval σ = 0 := by
  rw [install, holds_solve_iff (hrow subject hs) hobjective, solveFor_eq_iff hreduced hs]

theorem Measures.install
    (hf : t.Measures o f)
    (hs : subject ∈ row.symbols)
    (hrow : t.Nonbasic row)
    (hobjective : subject.isObjective = false) :
    (t.install subject row).Measures o f :=
  hf.solve (hrow subject hs) hobjective

/-- A row may be solved for a symbol that no restricted row depends on. -/
theorem Feasible.install
    (h : t.Feasible)
    (hs : subject ∈ row.symbols)
    (hobjective : ∀ s ∈ row.symbols, s.isObjective = false)
    (hunmentioned : ∀ b r, t.row? b = some r → b.isFree = false → subject ∉ r.symbols)
    (hfree : subject.isFree = false → ∀ s ∈ row.symbols, s.isFree = false)
    (hconstant : subject.isFree = false → 0 ≤ -row.constant / row.coefficient subject) :
    (t.install subject row).Feasible := by
  have hsolved : ∀ s ∈ (row.solveFor subject).symbols, s ∈ row.symbols :=
    fun s hs => (Row.mem_symbols_solveFor.1 hs).2
  refine ⟨fun b r hb hbr => ?_, fun b r hb s hsr => ?_, fun b r hb hbf s hsr => ?_⟩
  · obtain ⟨hbf, _⟩ := Symbol.isRestricted_iff.1 hbr
    rcases row?_install_eq_some hb with ⟨rfl, rfl⟩ | ⟨_, q, hq, rfl⟩
    · rw [Row.constant_solveFor hs]
      exact hconstant hbf
    · rw [Row.substitute_of_not_mem (hunmentioned b q hq hbf)]
      exact h.constant_nonneg b q hq hbr
  · rcases row?_install_eq_some hb with ⟨rfl, rfl⟩ | ⟨_, q, hq, rfl⟩
    · exact hobjective s (hsolved s hsr)
    · exact h.not_objective_substitute hq (fun i hi => hobjective i (hsolved i hi)) s hsr
  · rcases row?_install_eq_some hb with ⟨rfl, rfl⟩ | ⟨_, q, hq, rfl⟩
    · exact hfree hbf s (hsolved s hsr)
    · rw [Row.substitute_of_not_mem (hunmentioned b q hq hbf)] at hsr
      exact h.not_free b q hq hbf s hsr

/-- The symbol that is chosen for a row keeps a tableau feasible. -/
theorem Feasible.install_of_chooseEntry
    (h : t.Feasible)
    (hsound : t.Sound)
    (hobjective : ∀ s ∈ row.symbols, s.isObjective = false)
    (hconstant : 0 ≤ row.constant)
    (hchoice : t.chooseEntry row = .solveFor subject) :
    (t.install subject row).Feasible := by
  obtain ⟨hs, hfree | ⟨hrow, hunreferenced, hsign⟩⟩ := chooseEntry_eq_solveFor hchoice
  · refine h.install hs hobjective (fun b r hb hbf hmem => ?_) ?_ ?_
    · rw [h.not_free b r hb hbf subject hmem] at hfree
      cases hfree
    · simp [hfree]
    · simp [hfree]
  · refine h.install hs hobjective (fun b r hb _ => ?_) (fun _ => hrow) fun _ => ?_
    · exact hsound.not_mem_of_isReferenced hunreferenced b r hb
    · rcases hsign with ⟨_, c, hc, hless⟩ | ⟨_, hzero⟩
      · have hneg : c < 0 := (Scalar.less_rat c 0).1 hless
        rw [Row.coefficient_of_get? hc]
        exact div_nonneg_of_nonpos (neg_nonpos.2 hconstant) hneg.le
      · rw [(Scalar.isNegligible_rat row.constant).1 hzero]
        simp

end Direct

section Independence

/-- A symbol that is neither basic nor mentioned may have any value. -/
theorem Fresh.holds_update_iff
    (h : t.Fresh s) :
    t.Holds (Function.update σ s x) ↔ t.Holds σ := by
  have hrow : ∀ b r, t.row? b = some r → b ≠ s ∧ s ∉ r.symbols := by
    refine fun b r hb => ⟨?_, h.2 b r hb⟩
    rintro rfl
    simp [h.1] at hb
  constructor
  · intro hσ b r hb hbo
    have heq := hσ b r hb hbo
    rwa [Function.update_of_ne (hrow b r hb).1, Row.eval_update_of_not_mem (hrow b r hb).2] at heq
  · intro hσ b r hb hbo
    rw [Function.update_of_ne (hrow b r hb).1, Row.eval_update_of_not_mem (hrow b r hb).2]
    exact hσ b r hb hbo

end Independence

section Artificial

theorem Sound.withArtificial
    (h : t.Sound)
    (hphase : t.FirstPhase row artificial goal)
    (hreduced : row.Reduced) :
    (t.withArtificial row artificial goal).Sound where
  toConsistent := h.toConsistent.withArtificial hphase
  reduced b r hb := by
    rcases row?_addRow_eq_some hb with ⟨_, rfl⟩ | ⟨_, hb⟩
    · exact hreduced
    · rcases row?_addRow_eq_some hb with ⟨_, rfl⟩ | ⟨_, hb⟩
      · exact hreduced
      · exact h.reduced b r hb

theorem Feasible.withArtificial
    (h : t.Feasible)
    (hrow : ∀ s ∈ row.symbols, s.isRestricted = true)
    (hconstant : 0 ≤ row.constant) :
    (t.withArtificial row artificial goal).Feasible := by
  have hobjective : ∀ s ∈ row.symbols, s.isObjective = false :=
    fun s hs => (Symbol.isRestricted_iff.1 (hrow s hs)).2
  have hfree : ∀ s ∈ row.symbols, s.isFree = false :=
    fun s hs => (Symbol.isRestricted_iff.1 (hrow s hs)).1
  exact (h.addRow (fun _ => hconstant) hobjective fun _ => hfree).addRow
    (fun _ => hconstant) hobjective fun _ => hfree

theorem holds_withArtificial_iff
    (hphase : t.FirstPhase row artificial goal) :
    (t.withArtificial row artificial goal).Holds σ ↔
      t.Holds σ ∧ σ artificial = row.eval σ := by
  have hfresh := hphase.fresh.addRow hphase.ne hphase.not_mem
  rw [withArtificial, holds_addRow_iff hfresh.1 hphase.isObjective,
    holds_addRow_objective hphase.fresh_goal.1 hphase.isObjective_goal]

/-- The new objective measures the artificial symbol. -/
theorem measures_withArtificial_goal
    (hphase : t.FirstPhase row artificial goal) :
    (t.withArtificial row artificial goal).Measures goal fun σ => σ artificial := by
  refine ⟨row, ?_, fun σ hσ => (hσ artificial row ?_ hphase.isObjective).symm⟩
  · rw [withArtificial, row?_addRow, if_neg hphase.ne.symm, row?_addRow, if_pos rfl]
  · rw [withArtificial, row?_addRow, if_pos rfl]

theorem Measures.withArtificial
    (hf : t.Measures o f)
    (hphase : t.FirstPhase row artificial goal) :
    (t.withArtificial row artificial goal).Measures o f := by
  obtain ⟨r, hr, hmeasure⟩ := hf
  refine ⟨r, ?_, fun σ hσ => hmeasure σ ?_⟩
  · have hog : o ≠ goal := ne_of_row? hr hphase.fresh_goal.1
    have hoa : o ≠ artificial := ne_of_row? hr hphase.fresh.1
    rw [Tableau.withArtificial, row?_addRow, if_neg hoa, row?_addRow, if_neg hog, hr]
  · exact ((holds_withArtificial_iff hphase).1 hσ).1

theorem Sound.dropArtificial
    (h : t.Sound)
    (hdrop : t.dropArtificial artificial = some t') :
    t'.Sound := by
  rcases dropArtificial_eq_some hdrop with
    ⟨_, rfl⟩ | ⟨row, _, hremove⟩ | ⟨row, entering, hrow, hmem, _, rfl⟩
  · exact h.removeColumn artificial
  · exact h.removeRow hremove
  · exact (h.pivot hrow hmem).removeColumn artificial

/-- An artificial symbol that reads zero is dropped without disturbing any constant. -/
theorem Feasible.dropArtificial
    (h : t.Feasible)
    (hsound : t.Sound)
    (hartificial : artificial.isRestricted = true)
    (hzero : t.reading artificial = 0)
    (hdrop : t.dropArtificial artificial = some t') :
    t'.Feasible := by
  rcases dropArtificial_eq_some hdrop with
    ⟨_, rfl⟩ | ⟨row, _, hremove⟩ | ⟨row, entering, hrow, hmem, _, rfl⟩
  · exact h.removeColumn artificial
  · exact h.removeRow hremove
  · rw [reading_of_row? hrow] at hzero
    refine (h.pivot hsound hrow hmem hartificial ?_ fun b q hq hb _ => ?_).removeColumn artificial
    · simp [hzero]
    · simpa [hzero] using h.constant_nonneg b q hq hb

theorem row?_pivot_leaving
    {entering leaving : Symbol}
    (hconsistent : t.Consistent)
    (hl : t.row? leaving = some row)
    (he : entering ∈ row.symbols) :
    (t.pivot entering leaving).row? leaving = none := by
  have hne : leaving ≠ entering := by
    rintro rfl
    exact hconsistent.not_mem_of_row? hl hl he
  rw [row?_pivot hl, if_neg hne, if_pos rfl]

/-- Dropping an artificial symbol that reads zero fixes it at zero. -/
theorem holds_dropArtificial_iff
    (hsound : t.Sound)
    (hartificial : artificial.isObjective = false)
    (hzero : t.reading artificial = 0)
    (hdrop : t.dropArtificial artificial = some t') :
    t'.Holds σ ↔ t.Holds (Function.update σ artificial 0) := by
  rcases dropArtificial_eq_some hdrop with
    ⟨hnone, rfl⟩ | ⟨row, hconstant, hremove⟩ | ⟨row, entering, hrow, hmem, hentering, rfl⟩
  · exact holds_removeColumn_iff hnone
  · have hrow := (row?_of_removeRow hremove).1
    rw [reading_of_row? hrow] at hzero
    rw [holds_of_removeRow hremove,
      (hsound.toConsistent.fresh_of_removeRow hremove).holds_update_iff,
      Function.update_self, Row.eval_of_symbols_eq_nil hconstant, hzero]
    simp
  · have hagrees := hsound.agrees_pivot hrow hmem hartificial
      (Symbol.isObjective_of_isSlack hentering)
    rw [holds_removeColumn_iff (row?_pivot_leaving hsound.toConsistent hrow hmem),
      hagrees.holds_iff]

theorem Measures.dropArtificial
    (hf : t.Measures o f)
    (hsound : t.Sound)
    (ho : o.isObjective = true)
    (hartificial : artificial.isObjective = false)
    (hzero : t.reading artificial = 0)
    (hdrop : t.dropArtificial artificial = some t') :
    t'.Measures o fun σ => f (Function.update σ artificial 0) := by
  rcases dropArtificial_eq_some hdrop with
    ⟨hnone, rfl⟩ | ⟨row, hconstant, hremove⟩ | ⟨row, entering, hrow, hmem, hentering, rfl⟩
  · exact hf.removeColumn hnone
  · obtain ⟨r, hr, hmeasure⟩ := hf
    have hoa : o ≠ artificial := (Symbol.ne_of_isObjective hartificial ho).symm
    have hfresh := hsound.toConsistent.fresh_of_removeRow hremove
    have hr' : t'.row? o = some r := by
      rw [(row?_of_removeRow hremove).2, if_neg hoa, hr]
    refine ⟨r, hr', fun σ hσ => ?_⟩
    beta_reduce
    rw [← hmeasure _ ((holds_dropArtificial_iff hsound hartificial hzero hdrop).1 hσ),
      Row.eval_update_of_not_mem (hfresh.2 o r hr')]
  · have hagrees := hsound.agrees_pivot hrow hmem hartificial
      (Symbol.isObjective_of_isSlack hentering)
    exact (hagrees.measures o f ho hf).removeColumn
      (row?_pivot_leaving hsound.toConsistent hrow hmem)

end Artificial

section TwoPhases

/-- A first phase of a reduced row over restricted symbols that starts feasible. -/
structure FeasiblePhase (t : Tableau Rat) (row : Row Rat) (artificial goal : Symbol) : Prop
    extends t.FirstPhase row artificial goal where
  sound : t.Sound
  feasible : t.Feasible
  reduced : row.Reduced
  isRestricted : ∀ s ∈ row.symbols, s.isRestricted = true
  constant_nonneg : 0 ≤ row.constant

/-- The tableau in which the artificial symbol is minimised. -/
def minimised (t : Tableau Rat) (row : Row Rat) (artificial goal : Symbol) (further : Nat) :
    Tableau Rat :=
  ((t.withArtificial row artificial goal).minimise goal further).1

/-- What is reached by minimising: the row of the objective, and the tableau without that row. -/
structure Reached (t : Tableau Rat) (row : Row Rat) (artificial : Symbol) (reached : Row Rat)
    (rest : Tableau Rat) : Prop where
  sound : rest.Sound
  feasible : rest.Feasible
  holds_iff : ∀ σ, rest.Holds σ ↔ t.Holds σ ∧ σ artificial = row.eval σ
  eval_eq : ∀ σ, rest.Holds σ → reached.eval σ = σ artificial
  reading_eq : rest.reading artificial = reached.constant
  measures : ∀ f, t.Measures .objective f → rest.Measures .objective f

theorem FeasiblePhase.sound_withArtificial
    (h : t.FeasiblePhase row artificial goal) :
    (t.withArtificial row artificial goal).Sound :=
  h.sound.withArtificial h.toFirstPhase h.reduced

theorem FeasiblePhase.feasible_withArtificial
    (h : t.FeasiblePhase row artificial goal) :
    (t.withArtificial row artificial goal).Feasible :=
  h.feasible.withArtificial h.isRestricted h.constant_nonneg

theorem FeasiblePhase.minimised_spec
    (h : t.FeasiblePhase row artificial goal)
    (further : Nat) :
    (t.minimised row artificial goal further).Sound ∧
      (t.minimised row artificial goal further).Feasible ∧
      (t.withArtificial row artificial goal).Agrees (t.minimised row artificial goal further) :=
  h.sound_withArtificial.minimise h.feasible_withArtificial goal further

/-- Minimising the artificial symbol never ends as unbounded. -/
theorem FeasiblePhase.tryAccept_ne_unbounded
    (h : t.FeasiblePhase row artificial goal) :
    (t.tryAccept row artificial goal further).2 ≠ .unbounded := by
  rw [tryAccept_snd]
  exact h.sound_withArtificial.minimise_ne_unbounded h.feasible_withArtificial h.isObjective_goal
    (measures_withArtificial_goal h.toFirstPhase)
    (fun σ _ hσ => hσ artificial (Symbol.isRestricted_of_isSlack h.isSlack)) further

/-- The objective of a first phase keeps its row. -/
theorem FeasiblePhase.exists_row?_goal
    (h : t.FeasiblePhase row artificial goal)
    (further : Nat) :
    ∃ reached, (t.minimised row artificial goal further).row? goal = some reached := by
  obtain ⟨_, _, hagrees⟩ := h.minimised_spec further
  obtain ⟨reached, hreached, _⟩ := hagrees.measures goal _ h.isObjective_goal
    (measures_withArtificial_goal h.toFirstPhase)
  exact ⟨reached, hreached⟩

/--
When the artificial symbol has been minimised, its objective still measures it, and the tableau
without that objective has the solutions at which the artificial symbol equals the row.
-/
theorem FeasiblePhase.reached
    {reached : Row Rat} {rest : Tableau Rat}
    (h : t.FeasiblePhase row artificial goal)
    (hremove : (t.minimised row artificial goal further).removeRow goal = some (reached, rest)) :
    t.Reached row artificial reached rest := by
  obtain ⟨hsound, hfeasible, hagrees⟩ := h.minimised_spec further
  obtain ⟨hreached, hrows⟩ := row?_of_removeRow hremove
  have hmeasure := hagrees.measures goal _ h.isObjective_goal
    (measures_withArtificial_goal h.toFirstPhase)
  have hrest : ∀ σ, rest.Holds σ ↔ (t.minimised row artificial goal further).Holds σ := by
    intro σ
    rw [holds_of_removeRow hremove]
    simp [h.isObjective_goal]
  refine ⟨hsound.removeRow hremove, hfeasible.removeRow hremove, fun σ => ?_, fun σ hσ => ?_, ?_,
    fun f hf => ?_⟩
  · rw [hrest, hagrees.holds_iff, holds_withArtificial_iff h.toFirstPhase]
  · obtain ⟨r, hr, heval⟩ := hmeasure
    rw [hreached] at hr
    cases hr
    exact heval σ ((hrest σ).1 hσ)
  · have hkeep : rest.row? artificial =
        (t.minimised row artificial goal further).row? artificial := by
      rw [hrows, if_neg h.ne]
    rw [reading, hkeep, ← reading, ← hmeasure.reading_eq hsound.toConsistent,
      reading_of_row? hreached]
  · obtain ⟨r, hr, hmeasure⟩ := hagrees.measures .objective f rfl
      (hf.withArtificial h.toFirstPhase)
    have hog : Symbol.objective ≠ goal := by
      obtain ⟨q, hq, _⟩ := hf
      exact ne_of_row? hq h.fresh_goal.1
    exact ⟨r, by rw [hrows, if_neg hog, hr], fun σ hσ => hmeasure σ ((hrest σ).1 hσ)⟩

/-- An accepted row is zero at all solutions, and nothing else has changed. -/
theorem FeasiblePhase.tryAccept_spec
    (h : t.FeasiblePhase row artificial goal)
    (haccept : (t.tryAccept row artificial goal further).1 = some t') :
    t'.Sound ∧ t'.Feasible ∧ (∀ σ, t'.Holds σ ↔ t.Holds σ ∧ row.eval σ = 0) ∧
      ∀ f, t.Measures .objective f →
        t'.Measures .objective fun σ => f (Function.update σ artificial 0) := by
  obtain ⟨reached, rest, hremove, hnegligible, hdrop⟩ := tryAccept_eq_some haccept
  have hreached := h.reached hremove
  have hzero : rest.reading artificial = 0 := by
    rw [hreached.reading_eq]
    exact (Scalar.isNegligible_rat _).1 hnegligible
  refine ⟨hreached.sound.dropArtificial hdrop,
    hreached.feasible.dropArtificial hreached.sound (Symbol.isRestricted_of_isSlack h.isSlack)
      hzero hdrop, fun σ => ?_, fun f hf => ?_⟩
  · rw [holds_dropArtificial_iff hreached.sound h.isObjective hzero hdrop, hreached.holds_iff,
      h.fresh.holds_update_iff, Function.update_self, Row.eval_update_of_not_mem h.not_mem,
      eq_comm (a := (0 : Rat))]
  · exact (hreached.measures f hf).dropArtificial hreached.sound rfl h.isObjective hzero hdrop

end TwoPhases

section Charge

theorem holds_charge_iff :
    (t.charge k error).Holds σ ↔ t.Holds σ := by
  have hrows : ∀ b, b.isObjective = false → (t.charge k error).row? b = t.row? b := by
    intro b hb
    refine row?_charge_of_ne ?_
    rintro rfl
    cases hb
  constructor
  · intro h b r hb hbo
    exact h b r (by rw [hrows b hbo, hb]) hbo
  · intro h b r hb hbo
    rw [hrows b hbo] at hb
    exact h b r hb hbo

theorem Sound.charge
    (h : t.Sound)
    (k : Rat)
    (error : Symbol) :
    (t.charge k error).Sound where
  toConsistent := h.toConsistent.charge k error
  reduced b r hb := by
    unfold Tableau.charge at hb
    split at hb
    · next q hq => exact (h.addRowTo (h.nonbasic hq) k).reduced b r hb
    · next hnone => exact (h.addTermTo hnone k).reduced b r hb

theorem Feasible.charge
    (h : t.Feasible)
    (herror : error.isRestricted = true) :
    (t.charge k error).Feasible := by
  obtain ⟨hef, heo⟩ := Symbol.isRestricted_iff.1 herror
  have hobjective : ∀ r, (t.charge k error).row? .objective = some r →
      ∀ s ∈ r.symbols, s.isObjective = false ∧ s.isFree = false := by
    intro r hr s hs
    have hold : ∀ q, t.row? .objective = some q → s ∈ q.symbols →
        s.isObjective = false ∧ s.isFree = false := fun q hq hsq =>
      ⟨h.not_objective _ q hq s hsq, h.not_free _ q hq rfl s hsq⟩
    unfold Tableau.charge at hr
    split at hr
    · next row hrow =>
        rcases row?_addRowTo_eq_some hr with ⟨_, q, hq, rfl⟩ | ⟨hne, _⟩
        · rcases Row.mem_symbols_of_mem_addRow hs with hs | hs
          · exact hold q hq hs
          · exact ⟨h.not_objective _ row hrow s hs, h.not_free _ row hrow hef s hs⟩
        · exact absurd rfl hne
    · rcases row?_addTermTo_eq_some hr with ⟨_, q, hq, rfl⟩ | ⟨hne, _⟩
      · rcases Row.mem_symbols_of_mem_addTerm hs with hs | rfl
        · exact hold q hq hs
        · exact ⟨heo, hef⟩
      · exact absurd rfl hne
  refine ⟨fun b r hb hbr => ?_, fun b r hb s hs => ?_, fun b r hb hbf s hs => ?_⟩
  · have hbo : b ≠ .objective := by
      rintro rfl
      cases hbr
    rw [row?_charge_of_ne hbo] at hb
    exact h.constant_nonneg b r hb hbr
  · by_cases hbo : b = .objective
    · subst hbo
      exact (hobjective r hb s hs).1
    · rw [row?_charge_of_ne hbo] at hb
      exact h.not_objective b r hb s hs
  · by_cases hbo : b = .objective
    · subst hbo
      exact (hobjective r hb s hs).2
    · rw [row?_charge_of_ne hbo] at hb
      exact h.not_free b r hb hbf s hs

/-- Charging an error adds its multiple to what the objective measures. -/
theorem Measures.charge
    (hf : t.Measures .objective f)
    (herror : error.isObjective = false)
    (k : Rat) :
    (t.charge k error).Measures .objective fun σ => f σ + k * σ error := by
  obtain ⟨r, hr, hmeasure⟩ := hf
  cases he : t.row? error with
  | none =>
      refine ⟨r.addTerm error k, ?_, fun σ hσ => ?_⟩
      · rw [Tableau.charge, he]
        exact (row?_addTermTo hr).trans (if_pos rfl)
      · rw [Row.eval_addTerm, hmeasure σ (holds_charge_iff.1 hσ)]
  | some row =>
      refine ⟨r.addRow row k, ?_, fun σ hσ => ?_⟩
      · rw [Tableau.charge, he]
        exact (row?_addRowTo hr).trans (if_pos rfl)
      · have hσt := holds_charge_iff.1 hσ
        beta_reduce
        rw [Row.eval_addRow, hmeasure σ hσt, hσt error row he herror]

/-- Charging the errors of an equation adds their weighted sum to the objective. -/
theorem chargeAll_spec
    {markers : Markers}
    (hsound : t.Sound)
    (hfeasible : t.Feasible)
    (hf : t.Measures .objective f)
    (herrors : ∀ e ∈ markers.errors, e.isRestricted = true)
    (k : Rat) :
    (t.chargeAll markers k).Sound ∧ (t.chargeAll markers k).Feasible ∧
      (∀ σ, (t.chargeAll markers k).Holds σ ↔ t.Holds σ) ∧
      (t.chargeAll markers k).Measures .objective fun σ => f σ + k * markers.errorSum σ := by
  unfold chargeAll Markers.errorSum
  generalize markers.errors = errors at herrors
  induction errors generalizing t f with
  | nil =>
      exact ⟨hsound, hfeasible, fun _ => Iff.rfl, by simpa using hf⟩
  | cons e errors ih =>
      have he := herrors e List.mem_cons_self
      obtain ⟨hsound', hfeasible', hholds, hmeasure⟩ :=
        ih (hsound.charge k e) (hfeasible.charge he)
          (hf.charge (Symbol.isRestricted_iff.1 he).2 k)
          fun i hi => herrors i (List.mem_cons_of_mem _ hi)
      refine ⟨hsound', hfeasible', fun σ => (hholds σ).trans holds_charge_iff, ?_⟩
      refine hmeasure.congr fun σ _ => ?_
      rw [List.map_cons, List.sum_cons]
      ring

end Charge

end Tableau
end LinearLayout
