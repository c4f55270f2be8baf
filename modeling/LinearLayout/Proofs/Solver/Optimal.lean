import Mathlib.Algebra.Order.Field.Rat
import LinearLayout.Proofs.Solver.Rejection
import LinearLayout.Proofs.Solver.Settled

/-!
# Least violations

The errors of a preferred equation are at least what its values miss it by, and they can be chosen
to be exactly that.  So the objective of a solver bounds the weighted violation of the reported
values from above; where no slack lowers it any more, it bounds the weighted violation of all
values that satisfy the required equations from below.
-/

namespace LinearLayout

namespace Equation

variable {e : Equation Rat} {ν : Variable → Rat} {es : List (Equation Rat)}

/-- By how much the values miss the equation. -/
def violation (e : Equation Rat) (ν : Variable → Rat) : Rat :=
  match e.relation with
  | .equal => |e.sum ν - e.constant|
  | .atMost => max 0 (e.sum ν - e.constant)
  | .atLeast => max 0 (e.constant - e.sum ν)

/-- The weighted violations of the preferred equations of a list. -/
def cost (es : List (Equation Rat)) (ν : Variable → Rat) : Rat :=
  ((es.filter fun e => !e.strength.isRequired).map fun e => e.weight * e.violation ν).sum

/-- The values satisfy every required equation of a list. -/
def Admissible (es : List (Equation Rat)) (ν : Variable → Rat) : Prop :=
  ∀ e ∈ es, e.strength.isRequired = true → e.Satisfied ν

/-- The values are admissible, and no admissible values cost less. -/
structure Optimal (es : List (Equation Rat)) (ν : Variable → Rat) : Prop where
  admissible : Admissible es ν
  cost_le : ∀ μ, Admissible es μ → cost es ν ≤ cost es μ

theorem violation_of_equal
    (h : e.relation = .equal) :
    e.violation ν = |e.room ν| := by
  simp only [violation, room, h]

theorem violation_of_ne_equal
    (h : e.relation ≠ .equal) :
    e.violation ν = max 0 (-e.room ν) := by
  unfold violation room
  cases hrelation : e.relation with
  | equal => exact absurd hrelation h
  | atMost => simp only [neg_neg]
  | atLeast => simp only [neg_sub]

theorem weight_of_isRequired
    (h : e.strength.isRequired = true) :
    e.weight = 0 := by
  unfold weight Strength.weight?
  unfold Strength.isRequired at h
  cases hp : e.strength.priority with
  | required => rfl
  | preferred w => simp [hp, Priority.isRequired] at h

/-- Required equations cost nothing. -/
theorem cost_eq
    (es : List (Equation Rat)) (ν : Variable → Rat) :
    cost es ν = (es.map fun e => e.weight * e.violation ν).sum := by
  unfold cost
  induction es with
  | nil =>
      rfl
  | cons e es ih =>
      rw [List.map_cons, List.sum_cons, ← ih]
      cases hrequired : e.strength.isRequired with
      | true => simp [hrequired, weight_of_isRequired hrequired]
      | false => simp [hrequired]

end Equation

namespace Markers

variable {markers : Markers} {e : Equation Rat} {ν : Variable → Rat} {σ : Assignment}

/-- Where the markers take up the room, the errors are no less than the violation. -/
theorem weight_mul_violation_le
    (h : markers.Fits e)
    (hresidual : markers.residual (e.room ν) σ = 0)
    (hnonneg : σ.Nonneg) :
    e.weight * e.violation ν ≤ e.weight * markers.errorSum σ := by
  have hvalue : ∀ x ∈ markers.symbols, 0 ≤ σ x := fun x hx => hnonneg x (h.1.isRestricted hx)
  cases markers with
  | rigid dummy =>
      simp [Equation.weight_of_isRequired h.2.2]
  | bounded slack =>
      simp [Equation.weight_of_isRequired h.2.2]
  | elastic plus minus =>
      have hplus := hvalue plus (by simp [symbols])
      have hminus := hvalue minus (by simp [symbols])
      refine mul_le_mul_of_nonneg_left ?_ e.weight_nonneg
      rw [Equation.violation_of_equal h.2.1]
      simp only [residual] at hresidual
      simp only [errorSum, errors, List.map_cons, List.map_nil, List.sum_cons, List.sum_nil]
      exact abs_le.2 ⟨by linarith, by linarith⟩
  | yielding slack error =>
      have hslack := hvalue slack (by simp [symbols])
      have herror := hvalue error (by simp [symbols])
      refine mul_le_mul_of_nonneg_left ?_ e.weight_nonneg
      rw [Equation.violation_of_ne_equal h.2.1]
      simp only [residual] at hresidual
      simp only [errorSum, errors, List.map_cons, List.map_nil, List.sum_cons, List.sum_nil]
      exact max_le (by linarith) (by linarith)

/-- Where the markers share the room, the errors are the violation. -/
theorem weight_mul_errorSum_of_share
    (h : markers.Fits e)
    (hnodup : markers.symbols.Nodup)
    (hshare : ∀ x ∈ markers.symbols, σ x = markers.share (e.room ν) x) :
    e.weight * markers.errorSum σ = e.weight * e.violation ν := by
  cases markers with
  | rigid dummy =>
      simp [Equation.weight_of_isRequired h.2.2]
  | bounded slack =>
      simp [Equation.weight_of_isRequired h.2.2]
  | elastic plus minus =>
      have hne : minus ≠ plus := by
        rintro rfl
        simp [symbols] at hnodup
      have hplus := hshare plus (by simp [symbols])
      have hminus := hshare minus (by simp [symbols])
      simp only [share, if_true, if_neg hne] at hplus hminus
      have hsum : max (e.room ν) 0 + max (-e.room ν) 0 = |e.room ν| := by
        rcases le_total (e.room ν) 0 with hle | hle
        · rw [max_eq_right hle, max_eq_left (neg_nonneg.2 hle), abs_of_nonpos hle, zero_add]
        · rw [max_eq_left hle, max_eq_right (neg_nonpos.2 hle), abs_of_nonneg hle, add_zero]
      simp [errorSum, errors, hplus, hminus, hsum, Equation.violation_of_equal h.2.1]
  | yielding slack error =>
      have hne : error ≠ slack := by
        rintro rfl
        simp [symbols] at hnodup
      have herror := hshare error (by simp [symbols])
      simp only [share, if_neg hne] at herror
      simp [errorSum, errors, herror, Equation.violation_of_ne_equal h.2.1, max_comm]

end Markers

namespace Solver

section InForce

variable {K : Type} [Scalar K] {s : Solver K} {e : Equation K} {calls : List (Call K)}

/-- The equations in force, the oldest first. -/
def inForce (s : Solver K) : List (Equation K) :=
  s.equations.values.map InstalledEquation.equation

theorem installed_iff_mem_inForce :
    s.Installed e ↔ e ∈ s.inForce := by
  simp only [Installed, inForce, OrderedMap.values, List.map_map, List.mem_map,
    Function.comp_apply, Prod.exists, OrderedMap.get?_eq_some_iff]

theorem inForce_eq_map_onRecord
    (s : Solver K) :
    s.inForce = s.onRecord.map Prod.snd := by
  rw [inForce, onRecord, OrderedMap.values, List.map_map, List.map_map]
  rfl

theorem WellFormed.inForce_add
    (h : s.WellFormed)
    (e : Equation K) :
    (s.add e).solver.inForce = s.inForce ++ s.acceptedBy (.add e) := by
  rw [inForce_eq_map_onRecord, inForce_eq_map_onRecord, acceptedBy]
  rcases h.toNumbered.extends_or_enters e with ⟨hresult, hextends⟩ | ⟨hresult, henters⟩
  · rw [hresult, hextends.onRecord_eq, List.append_nil]
  · rw [hresult, h.onRecord_of_enters henters, List.map_append]
    rfl

/-- Without removals the equations in force are the accepted ones, in their order. -/
theorem WellFormed.inForce_run
    (h : s.WellFormed)
    (hkept : ∀ key, .remove key ∉ calls) :
    (s.run calls).inForce = s.inForce ++ s.accepted calls := by
  induction calls generalizing s with
  | nil =>
      simp [run, accepted]
  | cons call calls ih =>
      have hrest := ih (h.answer call) fun key hmem => hkept key (List.mem_cons_of_mem _ hmem)
      have hfirst : (s.answer call).2.1.inForce = s.inForce ++ s.acceptedBy call := by
        cases call with
        | add e => exact h.inForce_add e
        | remove key => exact absurd List.mem_cons_self (hkept key)
        | solve => exact (List.append_nil _).symm
        | value v => exact (List.append_nil _).symm
        | contains key => exact (List.append_nil _).symm
        | size => exact (List.append_nil _).symm
        | objectiveValue => exact (List.append_nil _).symm
      rw [accepted, ← List.append_assoc, ← hfirst]
      exact hrest

end InForce

section Bounds

variable {s : Solver Rat} {ν : Variable → Rat}

theorem satisfied_iff_admissible :
    s.Satisfied ν ↔ Equation.Admissible s.inForce ν := by
  simp only [satisfied_iff_installed, installed_iff_mem_inForce, Equation.Admissible]

theorem cost_inForce
    (s : Solver Rat) (ν : Variable → Rat) :
    Equation.cost s.inForce ν =
      s.equations.total fun _ i => i.equation.weight * i.equation.violation ν := by
  rw [Equation.cost_eq]
  simp [inForce, OrderedMap.values, OrderedMap.total, Function.comp_def]

theorem Exact.objectiveValue_eq
    (h : s.Exact) :
    s.objectiveValue = s.penalty s.tableau.reading :=
  h.measures.reading_eq h.consistent

/-- The objective is no less than the cost of the reported values. -/
theorem Exact.cost_value_le
    (h : s.Exact) :
    Equation.cost s.inForce s.value ≤ s.objectiveValue := by
  rw [cost_inForce, h.objectiveValue_eq]
  refine List.sum_le_sum fun entry hentry => ?_
  have hk := OrderedMap.get?_eq_some_iff.2 hentry
  exact Markers.weight_mul_violation_le (h.fits entry.1 entry.2 hk) (h.holds_reading hk)
    h.feasible.reading_nonneg

/-- The errors of admissible values can be chosen so that they cost what the values cost. -/
theorem WellFormed.penalty_extension
    (h : s.WellFormed)
    (ν : Variable → Rat) :
    s.penalty (s.extension ν) = Equation.cost s.inForce ν := by
  rw [cost_inForce]
  refine OrderedMap.total_congr fun entry hentry => ?_
  have hk := OrderedMap.get?_eq_some_iff.2 hentry
  exact Markers.weight_mul_errorSum_of_share (h.fits entry.1 entry.2 hk)
    (h.nodup entry.1 entry.2 hk) fun x hx => h.extension_marker hk hx

/-- No admissible values cost less than the objective of a settled solver. -/
theorem Exact.objectiveValue_le
    (h : s.Exact)
    (hsettled : s.Settled)
    (hν : s.Satisfied ν) :
    s.objectiveValue ≤ Equation.cost s.inForce ν := by
  obtain ⟨r, hr, hmeasure⟩ := h.measures
  have hsolution := (h.holds_iff _).2 (h.denoted_extension ν)
  have hle := h.feasible.constant_le_eval hsettled hr rfl (h.nonneg_extension hν)
    fun x hx => h.extension_dummy_of_satisfied hx hν
  rw [hmeasure _ hsolution, h.penalty_extension] at hle
  rw [Solver.objectiveValue, hr]
  exact hle

/-- If they are admissible, the values of a settled solver are optimal and cost what it says. -/
theorem Exact.optimal_of_satisfied
    (h : s.Exact)
    (hsatisfied : s.Satisfied s.value)
    (hsettled : s.Settled) :
    Equation.Optimal s.inForce s.value ∧ s.objectiveValue = Equation.cost s.inForce s.value := by
  have hleast : ∀ μ, Equation.Admissible s.inForce μ →
      s.objectiveValue ≤ Equation.cost s.inForce μ :=
    fun μ hμ => h.objectiveValue_le hsettled (satisfied_iff_admissible.2 hμ)
  have hadmissible := satisfied_iff_admissible.1 hsatisfied
  exact ⟨⟨hadmissible, fun μ hμ => h.cost_value_le.trans (hleast μ hμ)⟩,
    le_antisymm (hleast _ hadmissible) h.cost_value_le⟩

theorem Exact.optimal
    (h : s.Exact)
    (hgrounded : s.tableau.Grounded)
    (hsettled : s.Settled) :
    Equation.Optimal s.inForce s.value ∧ s.objectiveValue = Equation.cost s.inForce s.value :=
  h.optimal_of_satisfied (h.satisfied_of_grounded hgrounded) hsettled

end Bounds

/--
Without removals, and unless the pivots allowed for a minimisation run out, the reported values
have after every call the least weighted violation of all values that satisfy the accepted
required equations, and the objective is that violation.
-/
theorem value_optimal
    (settings : SolverSettings) (calls : List (Call Rat))
    (hkept : ∀ key, .remove key ∉ calls)
    (hlimit : ∀ p ∈ (new settings).passes calls, p.ending ≠ .pivotLimit) :
    Equation.Optimal ((new settings).accepted calls) ((new settings).run calls).value ∧
      ((new settings).run calls).objectiveValue =
        Equation.cost ((new settings).accepted calls) ((new settings).run calls).value := by
  have hgrounded := grounded_run settings calls fun before key after hcalls => by
    refine absurd ?_ (hkept key)
    simp [hcalls]
  have hconclusive : Conclusive ((new settings).passes calls) := by
    intro p hp _
    obtain ⟨_, _, _, hunbounded⟩ := feasible_run settings calls
    cases hending : p.ending with
    | optimal => rfl
    | unbounded => exact absurd hending (hunbounded p hp)
    | pivotLimit => exact absurd hending (hlimit p hp)
  have hsettled := (settled_new settings).run (wellFormed_new settings) hconclusive
  have hoptimal := (exact_run settings calls).optimal hgrounded hsettled
  rw [(wellFormed_new settings).inForce_run hkept] at hoptimal
  exact hoptimal

/-- A bound, and three preferences that cannot all be met. -/
def contestedCalls : List (Call Rat) :=
  [.add ⟨[⟨1, sampleVariable⟩], .atLeast, 50, .required⟩,
    .add ⟨[⟨1, sampleVariable⟩], .equal, 10, (Priority.preferred 1).strength⟩,
    .add ⟨[⟨1, sampleVariable⟩], .equal, 70, (Priority.preferred 1000).strength⟩,
    .add ⟨[⟨1, sampleVariable⟩], .atMost, 60, (Priority.preferred 5).strength⟩,
    .add (.pin sampleVariable 40)]

/-- The strongest preference is met, and the others are missed by 60 and by 10. -/
theorem value_optimal_contested :
    (Equation.Optimal ((new {}).accepted contestedCalls) ((new {}).run contestedCalls).value ∧
      ((new {}).run contestedCalls).objectiveValue =
        Equation.cost ((new {}).accepted contestedCalls) ((new {}).run contestedCalls).value) ∧
    ((new {}).run contestedCalls).value sampleVariable = 70 ∧
      ((new {}).run contestedCalls).objectiveValue = 60 * 1 + 10 * 5 :=
  ⟨value_optimal {} contestedCalls (by simp [contestedCalls]) (by decide +kernel),
    by decide +kernel, by decide +kernel⟩

end Solver
end LinearLayout
