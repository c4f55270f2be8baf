import Mathlib.Data.List.Induction
import LinearLayout.Proofs.Solver.Extension
import LinearLayout.Proofs.Solver.Reachable

/-!
# Required equations and reported values

The reported values solve the compiled equations, so a required inequality is satisfied because
its slack reads no negative value, and a required equality is satisfied exactly where its dummy
reads zero.

Dummies read zero as long as no equality is removed that the other equalities imply.  When one of
two equalities that say the same is removed, the row of the dummy that is left may be solved for
another symbol, and nothing brings the dummy back to zero.
-/

namespace LinearLayout
namespace Solver

variable {s : Solver Rat} {e : Equation Rat} {key k : EquationKey} {i : InstalledEquation Rat}
variable {d : Symbol}

section Reading

theorem value_eq
    (s : Solver Rat) :
    s.value = s.valuation s.tableau.reading :=
  funext fun v => value_eq_valuation s v

theorem Exact.holds_reading
    (h : s.Exact)
    (hk : s.equations.get? k = some i) :
    i.markers.residual (i.equation.room s.value) s.tableau.reading = 0 := by
  have hreading : s.tableau.extend 0 = s.tableau.reading := funext fun _ => Tableau.extend_zero
  have hsolution := (h.holds_iff _).1 (Tableau.holds_extend h.consistent 0)
  rw [hreading] at hsolution
  rw [value_eq]
  exact hsolution k i hk

/-- Required inequalities are satisfied in every reachable state. -/
theorem Exact.satisfied_inequality
    (h : s.Exact)
    (hk : s.equations.get? k = some i)
    (hrequired : i.equation.strength.isRequired = true)
    (hrelation : i.equation.relation ≠ .equal) :
    i.equation.Satisfied s.value := by
  have hresidual := h.holds_reading hk
  have hfits := h.fits k i hk
  rw [Equation.satisfied_iff_room_nonneg hrelation]
  cases hmarkers : i.markers with
  | bounded slack =>
      rw [hmarkers] at hresidual hfits
      have hnonneg := h.feasible.reading_nonneg slack (Symbol.isRestricted_of_isSlack hfits.1)
      rw [Markers.residual] at hresidual
      linarith
  | rigid dummy =>
      rw [hmarkers] at hfits
      exact absurd hfits.2.1 hrelation
  | elastic plus minus =>
      rw [hmarkers] at hfits
      exact absurd hfits.2.1 hrelation
  | yielding slack error =>
      rw [hmarkers] at hfits
      rw [hfits.2.2] at hrequired
      cases hrequired

/-- A required equality is satisfied exactly where its dummy reads zero. -/
theorem Exact.satisfied_equality_iff
    (h : s.Exact)
    (hk : s.equations.get? k = some i)
    (hrigid : i.markers = .rigid d) :
    i.equation.Satisfied s.value ↔ s.tableau.reading d = 0 := by
  have hresidual := h.holds_reading hk
  have hfits := h.fits k i hk
  rw [hrigid] at hresidual hfits
  rw [Equation.satisfied_iff_room_eq_zero hfits.2.1]
  rw [Markers.residual] at hresidual
  constructor
  · intro hroom
    linarith
  · intro hreading
    linarith

theorem Exact.satisfied_value_iff
    (h : s.Exact) :
    s.Satisfied s.value ↔ ∀ k i d, s.equations.get? k = some i → i.markers = .rigid d →
      s.tableau.reading d = 0 := by
  constructor
  · intro hall k i d hk hrigid
    have hfits := h.fits k i hk
    rw [hrigid] at hfits
    exact (h.satisfied_equality_iff hk hrigid).1 (hall k i hk hfits.2.2)
  · intro hall k i hk hrequired
    by_cases hrelation : i.equation.relation = .equal
    · have hfits := h.fits k i hk
      cases hmarkers : i.markers with
      | rigid dummy =>
          exact (h.satisfied_equality_iff hk hmarkers).2 (hall k i dummy hk hmarkers)
      | elastic plus minus =>
          rw [hmarkers] at hfits
          rw [hfits.2.2] at hrequired
          cases hrequired
      | bounded slack =>
          rw [hmarkers] at hfits
          exact absurd hrelation hfits.2.1
      | yielding slack error =>
          rw [hmarkers] at hfits
          exact absurd hrelation hfits.2.1
    · exact h.satisfied_inequality hk hrequired hrelation

theorem Exact.satisfied_of_grounded
    (h : s.Exact)
    (hgrounded : s.tableau.Grounded) :
    s.Satisfied s.value := by
  refine h.satisfied_value_iff.2 fun k i d hk hrigid => hgrounded.reading_eq_zero ?_
  have hfits := h.fits k i hk
  rw [hrigid] at hfits
  exact hfits.1

end Reading

section Grounded

/-- The equation is a required equality. -/
def IsRigid (e : Equation Rat) : Prop :=
  e.relation = .equal ∧ e.strength.isRequired = true

/-- If the key names a required equality, then the other required equalities do not imply it. -/
def Independent (s : Solver Rat) (key : EquationKey) : Prop :=
  ∀ i, s.equations.get? key = some i → IsRigid i.equation →
    ∃ ν, (∀ k j, k ≠ key → s.equations.get? k = some j → IsRigid j.equation →
      j.equation.Satisfied ν) ∧ ¬ i.equation.Satisfied ν

/-- The marker of an equality that the others do not imply stands in no row of a dummy. -/
theorem Exact.not_mem_of_independent
    {b : Symbol} {r : Row Rat}
    (h : s.Exact)
    (hgrounded : s.tableau.Grounded)
    (hk : s.equations.get? key = some i)
    (hindependent : s.Independent key)
    (hb : s.tableau.row? b = some r)
    (hbd : b.isDummy = true) :
    i.markers.marker ∉ r.symbols := by
  intro hmem
  have hfits := h.fits key i hk
  have hrigid := Markers.eq_rigid_of_isDummy hfits.1 i.markers.marker_mem_symbols
    ((hgrounded b r hb hbd).2 _ hmem)
  rw [hrigid] at hfits
  obtain ⟨ν, hothers, hviolated⟩ := hindependent i hk hfits.2
  -- At these values the dummy of the equality alone differs from zero.
  have hzero : ∀ x : Symbol, x.isDummy = true → x ≠ i.markers.marker →
      s.extension ν x = 0 := by
    intro x hx hne
    refine h.extension_dummy hx fun l j hl hj => hothers l j ?_ hl ?_
    · rintro rfl
      rw [hk] at hl
      cases hl
      rw [hj] at hne
      exact hne rfl
    · have hfitsj := h.fits l j hl
      rw [hj] at hfitsj
      exact hfitsj.2
  have hnonzero : s.extension ν i.markers.marker ≠ 0 := by
    rw [h.extension_marker hk i.markers.marker_mem_symbols, hrigid, Markers.share, Ne, neg_eq_zero]
    rwa [Equation.satisfied_iff_room_eq_zero hfits.2.1] at hviolated
  exact hgrounded.not_mem_of_holds h.sound ((h.holds_iff _).2 (h.denoted_extension ν)) hzero
    hnonzero hb hbd hmem

theorem Exact.grounded_add
    (h : s.Exact)
    (hgrounded : s.tableau.Grounded)
    (e : Equation Rat) :
    (s.add e).solver.tableau.Grounded := by
  have hc := h.toNumbered.compiles e
  obtain ⟨s', o, ps, henters, hadd⟩ := Compiled.exists_enters s e
  rw [hadd]
  rw [← hc.grows.tableau] at hgrounded
  generalize s.compile e = c at hc henters hgrounded
  cases henters with
  | solved hchoice =>
      exact ((hgrounded.install_of_chooseEntry hc.numbered.consistent hchoice).chargeAll _
        _).minimise _ _
  | refused _ =>
      exact hgrounded
  | tried _ =>
      cases haccept : c.attempt.1 with
      | none =>
          exact hgrounded
      | some t =>
          exact ((hgrounded.tryAccept rfl rfl haccept).chargeAll _ _).minimise _ _

theorem Exact.grounded_remove
    (h : s.Exact)
    (hgrounded : s.tableau.Grounded)
    (hindependent : s.Independent key) :
    (s.remove key).solver.tableau.Grounded := by
  cases hk : s.equations.get? key with
  | none =>
      rw [remove_of_get?_eq_none hk]
      exact hgrounded
  | some i =>
      rw [remove_of_get? hk]
      exact (hgrounded.retract h.consistent fun b r hb hbd =>
        h.not_mem_of_independent hgrounded hk hindependent hb hbd).minimise _ _

theorem grounded_new
    (settings : SolverSettings) :
    (new (K := Rat) settings).tableau.Grounded := by
  intro b r hb hbd
  rcases Tableau.row?_addRow_eq_some hb with ⟨rfl, _⟩ | ⟨_, hb⟩
  · cases hbd
  · cases hb

theorem grounded_run
    (settings : SolverSettings) (calls : List (Call Rat))
    (hindependent : ∀ before key after, calls = before ++ .remove key :: after →
      ((new settings).run before).Independent key) :
    ((new settings).run calls).tableau.Grounded := by
  induction calls using List.reverseRecOn with
  | nil =>
      exact grounded_new settings
  | append_singleton calls call ih =>
      have h := exact_run settings calls
      have hgrounded := ih fun before key after hcalls =>
        hindependent before key (after ++ [call]) (by simp [hcalls])
      rw [run_append]
      cases call with
      | add e => exact h.grounded_add hgrounded e
      | remove key => exact h.grounded_remove hgrounded (hindependent calls key [] rfl)
      | solve => exact hgrounded.minimise _ _
      | value v => exact hgrounded
      | contains key => exact hgrounded
      | size => exact hgrounded
      | objectiveValue => exact hgrounded

end Grounded

/--
The installed equations are those that were accepted and not removed since.  The reported values
satisfy all required inequalities among them.  They satisfy all required equations exactly if the
dummies of the required equalities read zero, and they do so if no equality was removed that the
other required equalities implied.
-/
theorem value_satisfies_required
    (settings : SolverSettings) (calls : List (Call Rat)) :
    let s := (new settings).run calls
    s.onRecord = (new settings).standing calls ∧
      (∀ k i, s.equations.get? k = some i → i.equation.strength.isRequired = true →
        i.equation.relation ≠ .equal → i.equation.Satisfied s.value) ∧
      (s.Satisfied s.value ↔ ∀ k i d, s.equations.get? k = some i → i.markers = .rigid d →
        s.tableau.reading d = 0) ∧
      ((∀ before key after, calls = before ++ .remove key :: after →
        ((new settings).run before).Independent key) → s.Satisfied s.value) := by
  have h := exact_run settings calls
  exact ⟨onRecord_eq_standing settings calls,
    fun k i hk hrequired hrelation => h.satisfied_inequality hk hrequired hrelation,
    h.satisfied_value_iff,
    fun hindependent => h.satisfied_of_grounded (grounded_run settings calls hindependent)⟩

section Redundancy

/-- A variable of one entity. -/
def sampleVariable : Variable :=
  ⟨⟨1⟩, .left⟩

/-- The same value is required twice, then a bound on it, and then the first is taken back. -/
def redundantCalls : List (Call Rat) :=
  [.add (.pin sampleVariable 5), .add (.pin sampleVariable 5),
    .add ⟨[⟨1, sampleVariable⟩], .atLeast, 3, .required⟩, .remove ⟨0⟩]

/-- The second requirement is still installed, but the variable has moved to its bound. -/
theorem not_satisfied_redundantCalls :
    ¬ ((new {}).run redundantCalls).Satisfied ((new {}).run redundantCalls).value := by
  intro hall
  have hviolated : (((new {}).run redundantCalls).equations.get? ⟨1⟩).any (fun i =>
      decide (i.equation.relation = .equal) && i.equation.strength.isRequired &&
        decide (i.equation.sum ((new {}).run redundantCalls).value ≠ i.equation.constant)) =
      true := by
    decide +kernel
  obtain ⟨i, hi, htest⟩ := (Option.any_eq_true _ _).1 hviolated
  simp only [Bool.and_eq_true, decide_eq_true_eq] at htest
  obtain ⟨⟨hrelation, hrequired⟩, hne⟩ := htest
  have hsatisfied := hall ⟨1⟩ i hi hrequired
  rw [Equation.Satisfied, hrelation] at hsatisfied
  exact hne hsatisfied

end Redundancy

end Solver
end LinearLayout
