import LinearLayout.Proofs.Solver.Exact
import LinearLayout.Proofs.Solver.Ledger

/-!
# What every run keeps

After any calls the installed equations are those that were accepted and not removed since.  The
tableau expresses them, no more and no less, and it is feasible.  Weights are positive, so the objective is nowhere negative and no minimisation ends as
unbounded, however many pivots are allowed.
-/

namespace LinearLayout

/--
The solutions of the rows are those of the compiled equations, and the objective row adds up their
weighted errors.  The values of the variables are read from a solution.
-/
def Tableau.Expresses (t : Tableau Rat) (valuation : Assignment → Variable → Rat)
    (equations : OrderedMap EquationKey (InstalledEquation Rat)) : Prop :=
  (∀ σ, t.Holds σ ↔ ∀ k i, equations.get? k = some i → i.Holds (valuation σ) σ) ∧
    ∃ r, t.row? .objective = some r ∧ ∀ σ, t.Holds σ →
      r.eval σ = equations.total fun _ i => i.equation.weight * i.markers.errorSum σ

/-- The weight of an equation is the outcome of a clamp, and no clamp lets it be negative. -/
theorem Equation.weight_nonneg
    (e : Equation Rat) :
    0 ≤ e.weight := by
  have hleast : (0 : Rat) ≤ Scalar.leastWeight := by
    change (0 : Rat) ≤ mkRat 1 1000
    norm_num
  have hgreatest : (0 : Rat) ≤ Scalar.greatestWeight := by
    have hproduct : ∀ a b : Int, 0 ≤ a → 0 ≤ b → (0 : Rat) ≤ Rat.ofInt (a * b) := by
      intro a b ha hb
      rw [Rat.ofInt_eq_cast]
      exact_mod_cast mul_nonneg ha hb
    exact hproduct _ _ (by decide) (Int.natCast_nonneg _)
  have hclamp : ∀ w : Rat, 0 ≤ Scalar.clampWeight w := by
    intro w
    unfold Scalar.clampWeight
    split
    · split
      · exact hleast
      · next hless =>
          rw [Scalar.less_rat, not_lt] at hless
          split
          · exact hgreatest
          · exact hleast.trans hless
    · exact hleast
  obtain ⟨p, hp⟩ := e.strength.exists_normalized_eq
  cases p with
  | required =>
      rw [weight, Strength.weight?, ← hp]
      exact le_rfl
  | preferred w =>
      rw [weight, Strength.weight?, ← hp]
      exact hclamp w

namespace Solver

variable {s : Solver Rat} {σ : Assignment} {e : Equation Rat}

/-- Markers belong to one equation, unknowns to one variable, and every variable has its unknown. -/
structure Owned (s : Solver Rat) : Prop where
  fits : ∀ k i, s.equations.get? k = some i →
    i.markers.Fits i.equation ∧ i.markers.symbols.Nodup
  disjoint : ∀ k i l j, s.equations.get? k = some i → s.equations.get? l = some j → k ≠ l →
    ∀ x ∈ i.markers.symbols, x ∉ j.markers.symbols
  known : ∀ k i, s.equations.get? k = some i →
    ∀ term ∈ i.equation.terms, ∃ x, s.symbols.get? term.var = some x
  unknowns : ∀ v x, s.symbols.get? v = some x → x.isFree = true ∧
    ∀ w, s.symbols.get? w = some x → w = v

theorem WellFormed.owned
    (h : s.WellFormed) :
    s.Owned :=
  ⟨fun k i hk => ⟨h.fits k i hk, h.nodup k i hk⟩, h.disjoint, h.known,
    fun v x hv => ⟨h.isFree v x hv, fun w hw => h.injective w v x hw hv⟩⟩

section Denotation

theorem Exact.expresses
    (h : s.Exact) :
    s.tableau.Expresses s.valuation s.equations :=
  ⟨h.holds_iff, h.measures⟩

/-- Removing an equation leaves what the others express. -/
theorem Exact.expresses_remove
    (h : s.Exact)
    (key : EquationKey) :
    (s.remove key).solver.tableau.Expresses s.valuation (s.equations.erase key) := by
  have hremoved := (h.remove key).expresses
  cases hk : s.equations.get? key with
  | none =>
      have hsame : s.equations.erase key = s.equations := OrderedMap.erase_of_get?_eq_none hk
      rw [hsame]
      rw [remove_of_get?_eq_none hk] at hremoved ⊢
      exact hremoved
  | some i =>
      rw [remove_of_get? hk] at hremoved ⊢
      exact hremoved

/--
After any calls the installed equations are those that were accepted and not removed since, under
the keys that were returned for them.  The rows say exactly what they say, each with markers of its
own, and the objective row is the sum of the weighted errors.  A removal leaves the rest.
-/
theorem tableau_expresses_equations
    (settings : SolverSettings) (calls : List (Call Rat)) :
    let s := (new settings).run calls
    s.onRecord = (new settings).standing calls ∧
      s.tableau.Expresses s.valuation s.equations ∧ s.Owned ∧
      ∀ key, (s.remove key).solver.tableau.Expresses s.valuation (s.equations.erase key) := by
  have h := exact_run settings calls
  exact ⟨onRecord_eq_standing settings calls, h.expresses, h.toWellFormed.owned,
    h.expresses_remove⟩

/--
A value is required, another one is refused and a bound is preferred.  The first value is taken
back, and then the other one is required again.
-/
def reconsideredCalls : List (Call Rat) :=
  [.add (.pin ⟨⟨1⟩, .left⟩ 5), .add (.pin ⟨⟨1⟩, .left⟩ 7),
    .add ⟨[⟨1, ⟨⟨1⟩, .left⟩⟩], .atMost, 3, (Priority.preferred 1).strength⟩, .remove ⟨0⟩,
    .add (.pin ⟨⟨1⟩, .left⟩ 7)]

theorem tableau_expresses_equations_reconsidered :
    let s := (new {}).run reconsideredCalls
    (s.onRecord.map fun entry => (entry.1.number, entry.2.relation, entry.2.constant)) =
        [(1, .atMost, 3), (2, .equal, 7)] ∧
      s.tableau.Expresses s.valuation s.equations ∧ s.Owned ∧
      ∀ key, (s.remove key).solver.tableau.Expresses s.valuation (s.equations.erase key) := by
  obtain ⟨hrecord, hexpresses⟩ := tableau_expresses_equations {} reconsideredCalls
  refine ⟨?_, hexpresses⟩
  rw [hrecord]
  decide +kernel

end Denotation

section Boundedness

theorem WellFormed.penalty_nonneg
    (h : s.WellFormed)
    (hσ : σ.Nonneg) :
    0 ≤ s.penalty σ := by
  refine List.sum_nonneg fun y hy => ?_
  obtain ⟨entry, hentry, rfl⟩ := List.mem_map.1 hy
  have hproper := (h.fits entry.1 entry.2 (OrderedMap.get?_eq_some_iff.2 hentry)).1
  refine mul_nonneg entry.2.equation.weight_nonneg (List.sum_nonneg fun z hz => ?_)
  obtain ⟨x, hx, rfl⟩ := List.mem_map.1 hz
  exact hσ x (hproper.isRestricted_of_mem_errors hx)

theorem Exact.minimise_ne_unbounded
    (h : s.Exact) :
    s.minimise.2.ending ≠ .unbounded :=
  h.sound.minimise_ne_unbounded h.feasible rfl h.measures
    (fun _ _ hσ => h.toWellFormed.penalty_nonneg hσ) s.furtherPivots

theorem Exact.add_ne_unbounded
    (h : s.Exact)
    (e : Equation Rat) :
    ∀ p ∈ (s.add e).passes, p.ending ≠ .unbounded := by
  have hc := h.toNumbered.compiles e
  have hreduced := reduced_compile s e
  have hconstant := constant_compile_nonneg s e
  obtain ⟨s', o, ps, henters, hadd⟩ := Compiled.exists_enters s e
  have hentered := h.enters_ne_unbounded hc hreduced hconstant henters
  rw [hadd]
  cases o with
  | none =>
      exact hentered
  | some t =>
      rw [Compiled.conclude, enforce_passes]
      intro p hp
      rcases List.mem_append.1 hp with hp | hp
      · exact hentered p hp
      · cases List.mem_singleton.1 hp
        exact (h.register hc hreduced (fun σ hσ => h.toNumbered.eval_compile_eq_zero_iff hσ e)
          hconstant henters).minimise_ne_unbounded

theorem Exact.remove_ne_unbounded
    (h : s.Exact)
    (key : EquationKey) :
    ∀ p ∈ (s.remove key).passes, p.ending ≠ .unbounded := by
  cases hk : s.equations.get? key with
  | none =>
      rw [remove_of_get?_eq_none hk]
      simp
  | some i =>
      rw [remove_of_get? hk]
      intro p hp
      cases List.mem_singleton.1 hp
      exact (h.withdraw hk).minimise_ne_unbounded

theorem Exact.answer_ne_unbounded
    (h : s.Exact)
    (call : Call Rat) :
    ∀ p ∈ (s.answer call).2.2, p.ending ≠ .unbounded := by
  cases call with
  | add e => exact h.add_ne_unbounded e
  | remove key => exact h.remove_ne_unbounded key
  | solve =>
      intro p hp
      cases List.mem_singleton.1 hp
      exact h.minimise_ne_unbounded
  | value v => simp [answer]
  | contains key => simp [answer]
  | size => simp [answer]
  | objectiveValue => simp [answer]

theorem Exact.objectiveValue_nonneg
    (h : s.Exact) :
    0 ≤ s.objectiveValue := by
  have hreading : s.objectiveValue = s.penalty s.tableau.reading :=
    h.measures.reading_eq h.consistent
  rw [hreading]
  exact h.toWellFormed.penalty_nonneg h.feasible.reading_nonneg

/--
After any calls, and however many pivots are allowed, slacks and dummies read no negative value,
neither their rows nor the objective row mention an unknown, the objective is not negative, and no
minimisation has ended as unbounded.
-/
theorem feasible_run
    (settings : SolverSettings) (calls : List (Call Rat)) :
    let s := (new settings).run calls
    (∀ b r, s.tableau.row? b = some r → b.isSlack = true ∨ b.isDummy = true →
        0 ≤ r.constant ∧ ∀ x ∈ r.symbols, x.isFree = false) ∧
      (∃ r, s.tableau.row? .objective = some r ∧ ∀ x ∈ r.symbols, x.isFree = false) ∧
      0 ≤ s.objectiveValue ∧
      ∀ p ∈ (new settings).passes calls, p.ending ≠ .unbounded := by
  have h := exact_run settings calls
  refine ⟨fun b r hb hrole => ?_, ?_, h.objectiveValue_nonneg, fun p hp => ?_⟩
  · have hr : b.isRestricted = true :=
      hrole.elim Symbol.isRestricted_of_isSlack Symbol.isRestricted_of_isDummy
    exact ⟨h.feasible.constant_nonneg b r hb hr,
      h.feasible.not_free b r hb (Symbol.isRestricted_iff.1 hr).1⟩
  · obtain ⟨r, hr, _⟩ := h.measures
    exact ⟨r, hr, h.feasible.not_free _ r hr rfl⟩
  · obtain ⟨before, call, _, _, hcall⟩ := exists_of_mem_passes hp
    exact (exact_run settings before).answer_ne_unbounded call p hcall

end Boundedness

end Solver
end LinearLayout
