import LinearLayout.Proofs.Solver.Required
import LinearLayout.Proofs.Tableau.Refusal

/-!
# Rejected equations

As long as nothing is removed, a required equation is rejected exactly if it contradicts the
required equations accepted so far.  What is accepted is satisfied by the reported values; and
values that satisfy everything would extend to a feasible solution at which the compiled row is
zero, which no refused row has.
-/

namespace LinearLayout
namespace Solver

section Accepted

variable {K : Type} [Scalar K] {s : Solver K} {e e' : Equation K} {calls : List (Call K)}
variable {key : EquationKey}

/-- The equation that a call brings into force, if it does. -/
def acceptedBy (s : Solver K) : Call K → List (Equation K)
  | .add e =>
    match (s.add e).result with
    | .ok _ => [e]
    | .error _ => []
  | _ => []

/-- The equations that a list of calls brings into force. -/
def accepted (s : Solver K) : List (Call K) → List (Equation K)
  | [] => []
  | call :: calls => s.acceptedBy call ++ accepted (s.answer call).2.1 calls

/-- The equation is in force. -/
def Installed (s : Solver K) (e : Equation K) : Prop :=
  ∃ k i, s.equations.get? k = some i ∧ i.equation = e

/-- An addition is accepted and brings its equation into force, or is refused and brings none. -/
theorem add_cases
    (h : s.WellFormed)
    (e : Equation K) :
    (∃ key, (s.add e).result = .ok key ∧
        ∀ e', (s.add e).solver.Installed e' ↔ s.Installed e' ∨ e' = e) ∨
      ((s.add e).result = .error .unsatisfiable ∧
        ∀ e', (s.add e).solver.Installed e' ↔ s.Installed e') := by
  have hc := h.toNumbered.compiles e
  obtain ⟨s', o, ps, henters, hadd⟩ := Compiled.exists_enters s e
  have hextends := hc.grows.trans henters.grows
  rw [hadd]
  cases o with
  | none =>
      refine Or.inr ⟨rfl, fun e' => ?_⟩
      simp only [Installed, Compiled.conclude, hextends.equations]
  | some t =>
      refine Or.inl ⟨_, rfl, fun e' => ?_⟩
      have hget : ∀ k, ((s.compile e).conclude e s' (some t) ps).solver.equations.get? k =
          if k = ⟨s.nextKey⟩ then some ⟨e, (s.compile e).markers⟩ else s.equations.get? k := by
        intro k
        rw [← hextends.equations, ← hextends.nextKey]
        exact get?_register
      simp only [Installed, hget]
      constructor
      · rintro ⟨k, i, hk, rfl⟩
        split at hk
        · cases hk
          exact Or.inr rfl
        · exact Or.inl ⟨k, i, hk, rfl⟩
      · rintro (⟨k, i, hk, rfl⟩ | rfl)
        · have hne : k ≠ ⟨s.nextKey⟩ := by
            rintro rfl
            rw [h.get?_nextKey] at hk
            cases hk
          exact ⟨k, i, by rw [if_neg hne, hk], rfl⟩
        · exact ⟨_, _, if_pos rfl, rfl⟩

/-- Without removals the equations in force are those that were accepted. -/
theorem installed_run_iff
    (h : s.WellFormed)
    (hkept : ∀ key, .remove key ∉ calls) :
    (s.run calls).Installed e' ↔ s.Installed e' ∨ e' ∈ s.accepted calls := by
  induction calls generalizing s with
  | nil =>
      simp [run, accepted]
  | cons call calls ih =>
      have hkept' : ∀ key, .remove key ∉ calls :=
        fun key hmem => hkept key (List.mem_cons_of_mem _ hmem)
      have hrun : s.run (call :: calls) = (s.answer call).2.1.run calls := rfl
      rw [hrun]
      cases call with
      | add e =>
          refine (ih (h.add e) hkept').trans ?_
          rw [accepted, List.mem_append]
          rcases add_cases h e with ⟨key, hresult, hinstalled⟩ | ⟨hresult, hinstalled⟩
          · rw [hinstalled, acceptedBy, hresult, List.mem_singleton, or_assoc]
            rfl
          · rw [hinstalled, acceptedBy, hresult]
            simp only [List.not_mem_nil, false_or]
            rfl
      | remove key => exact absurd List.mem_cons_self (hkept key)
      | solve => exact ih h.minimise hkept'
      | value v => exact ih h hkept'
      | contains key => exact ih h hkept'
      | size => exact ih h hkept'
      | objectiveValue => exact ih h hkept'

end Accepted

variable {s : Solver Rat} {e : Equation Rat} {ν : Variable → Rat} {σ : Assignment}

theorem satisfied_iff_installed :
    s.Satisfied ν ↔
      ∀ e, s.Installed e → e.strength.isRequired = true → e.Satisfied ν := by
  constructor
  · rintro h e ⟨k, i, hk, rfl⟩
    exact h k i hk
  · exact fun h k i hk => h i.equation ⟨k, i, hk, rfl⟩

/-- The marker of a compiled equation stands in its row. -/
theorem Exact.marker_mem_compile
    (h : s.Exact)
    (e : Equation Rat) :
    (s.compile e).markers.marker ∈ (s.compile e).row.symbols := by
  have hc := h.toNumbered.compiles e
  have hmem := (s.compile e).markers.marker_mem_symbols
  have hfresh := h.toNumbered.fresh_of_le (hc.new _ hmem).1
  have hfree := (Symbol.isRestricted_iff.1 (hc.fits.1.isRestricted hmem)).1
  by_contra hunmentioned
  -- Otherwise the marker could have any value where the row is zero, but only one is right.
  obtain ⟨q, hiff⟩ : ∃ q, ∀ y, (s.compile e).row.eval (s.tableau.extend 0) = 0 ↔ y = q := by
    refine ⟨(s.compile e).markers.solved
      (e.room ((s.compile e).solver.valuation (s.tableau.extend 0))) (s.tableau.extend 0),
      fun y => ?_⟩
    have hσ := hfresh.holds_update_iff (x := y).2 (Tableau.holds_extend h.consistent 0)
    rw [← Row.eval_update_of_not_mem hunmentioned (k := y),
      h.toNumbered.eval_compile_eq_zero_iff hσ, hc.numbered.valuation_update hfree,
      Markers.residual_eq_zero_iff, Function.update_self, Markers.solved_update hc.nodup]
  have habsurd := (hiff (q + 1)).1 ((hiff q).2 rfl)
  linarith

/-- Values that satisfy all required equations and a new one bring the compiled row to zero. -/
theorem Exact.exists_feasible
    (h : s.Exact)
    (hν : s.Satisfied ν)
    (he : e.strength.isRequired = true → e.Satisfied ν) :
    ∃ σ, s.tableau.Holds σ ∧ (s.compile e).row.eval σ = 0 ∧ σ.Nonneg ∧
      ∀ x : Symbol, x.isDummy = true → σ x = 0 := by
  have hc := h.toNumbered.compiles e
  have hextends := Extends.refl (s.compile e).solver
  have hregistered := h.toWellFormed.register hc hextends hc.numbered hc.numbered.consistent
    hc.numbered.within
  have hsatisfied : ((s.compile e).solver.register e (s.compile e).markers
      (s.compile e).solver.tableau).Satisfied ν := by
    intro k i hk hrequired
    rcases get?_of_register hk with ⟨_, rfl⟩ | hk
    · exact he hrequired
    · rw [hc.grows.equations] at hk
      exact hν k i hk hrequired
  obtain ⟨hdenoted, hresidual⟩ := (h.toWellFormed.denoted_register_iff hc hextends).1
    (hregistered.denoted_extension ν)
  have hholds := (h.holds_iff _).2 hdenoted
  exact ⟨_, hholds, (h.toNumbered.eval_compile_eq_zero_iff hholds e).2 hresidual,
    hregistered.nonneg_extension hsatisfied,
    fun x hx => hregistered.extension_dummy_of_satisfied hx hsatisfied⟩

/-- A refused equation contradicts the required equations in force. -/
theorem Exact.not_satisfied_of_error
    (h : s.Exact)
    (hgrounded : s.tableau.Grounded)
    (hlimit : ∀ p ∈ (s.add e).passes, p.ending ≠ .pivotLimit)
    (herror : (s.add e).result = .error .unsatisfiable)
    (hν : s.Satisfied ν) :
    ¬ e.Satisfied ν := by
  intro he
  obtain ⟨σ, hσ, hzero, hnonneg, hdummy⟩ := h.exists_feasible hν fun _ => he
  have hc := h.toNumbered.compiles e
  have hmarker := h.marker_mem_compile e
  have hreduced := reduced_compile s e
  have hconstant := constant_compile_nonneg s e
  have hfresh := h.toNumbered.fresh_of_le (hc.new _ (s.compile e).markers.marker_mem_symbols).1
  obtain ⟨s', o, ps, henters, hadd⟩ := Compiled.exists_enters s e
  rw [hadd] at herror hlimit
  rw [← hc.grows.tableau] at hgrounded hσ hfresh
  generalize s.compile e = c at *
  cases henters with
  | solved _ =>
      cases herror
  | refused hconflict =>
      exact Tableau.eval_ne_zero_of_conflict hconflict hdummy hzero
  | tried hchoice =>
      have hphase := h.feasiblePhase hc hreduced hconstant hchoice
      have hslack := Tableau.exists_slack_of_chooseEntry hchoice hphase.isRestricted
        hphase.sound.toConsistent hmarker hfresh
      cases haccept : c.attempt.1 with
      | some t =>
          rw [haccept] at herror
          cases herror
      | none =>
          rw [haccept] at hlimit
          exact hphase.eval_ne_zero hgrounded hslack haccept (hlimit _ List.mem_cons_self) hσ
            hnonneg hdummy hzero

/-- A required equation can be added exactly if some values satisfy it with those in force. -/
theorem Exact.add_unsatisfiable_iff
    (h : s.Exact)
    (hgrounded : s.tableau.Grounded)
    (hrequired : e.strength.isRequired = true)
    (hlimit : ∀ p ∈ (s.add e).passes, p.ending ≠ .pivotLimit) :
    (s.add e).result = .error .unsatisfiable ↔ ¬ ∃ ν, e.Satisfied ν ∧ s.Satisfied ν := by
  constructor
  · rintro herror ⟨ν, he, hν⟩
    exact h.not_satisfied_of_error hgrounded hlimit herror hν he
  · intro hnone
    rcases add_cases h.toWellFormed e with ⟨key, _, hinstalled⟩ | ⟨hresult, _⟩
    · have hsatisfied := satisfied_iff_installed.1
        ((h.add e).satisfied_of_grounded (h.grounded_add hgrounded e))
      refine absurd ⟨(s.add e).solver.value, ?_, satisfied_iff_installed.2 fun e' he' => ?_⟩ hnone
      · exact hsatisfied e ((hinstalled e).2 (Or.inr rfl)) hrequired
      · exact hsatisfied e' ((hinstalled e').2 (Or.inl he'))
    · exact hresult

/--
Without removals, and unless the pivots allowed for it run out, the addition of a required
equation is refused exactly if no values satisfy it together with the required equations accepted
before it.
-/
theorem required_refused_iff
    (settings : SolverSettings) (calls : List (Call Rat)) (e : Equation Rat)
    (hkept : ∀ key, .remove key ∉ calls)
    (hrequired : e.strength.isRequired = true)
    (hlimit : ∀ p ∈ (((new settings).run calls).add e).passes, p.ending ≠ .pivotLimit) :
    (((new settings).run calls).add e).result = .error .unsatisfiable ↔
      ¬ ∃ ν, e.Satisfied ν ∧ ∀ e' ∈ (new settings).accepted calls,
        e'.strength.isRequired = true → e'.Satisfied ν := by
  have hgrounded := grounded_run settings calls fun before key after hcalls => by
    refine absurd ?_ (hkept key)
    simp [hcalls]
  have hnew : ∀ e', ¬ (new (K := Rat) settings).Installed e' := by
    rintro e' ⟨k, i, hk, _⟩
    cases hk
  rw [(exact_run settings calls).add_unsatisfiable_iff hgrounded hrequired hlimit]
  simp only [satisfied_iff_installed, installed_run_iff (wellFormed_new settings) hkept, hnew,
    false_or]

/-- A bound below a required value is refused, and indeed no value is below the bound. -/
theorem required_refused_below_pin :
    ¬ ∃ ν : Variable → Rat,
      (⟨[⟨1, sampleVariable⟩], .atMost, 3, .required⟩ : Equation Rat).Satisfied ν ∧
        ∀ e' ∈ (new {}).accepted [.add (.pin sampleVariable 5)],
          e'.strength.isRequired = true → e'.Satisfied ν :=
  (required_refused_iff {} [.add (.pin sampleVariable 5)]
    ⟨[⟨1, sampleVariable⟩], .atMost, 3, .required⟩ (by simp) rfl (by decide +kernel)).1
    (by decide +kernel)

end Solver
end LinearLayout
