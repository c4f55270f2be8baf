import LinearLayout.Proofs.Tableau.Retraction
import LinearLayout.Proofs.Solver.Meaning

/-!
# Exact solvers

An exact solver has a feasible tableau whose solutions are those of the installed equations and
whose objective is their weighted error.  A new solver is exact, and every call keeps it so: an
equation is added with the row that is entered and the errors that are charged, and it is removed
with the symbols that belong to it alone.
-/

namespace LinearLayout
namespace Solver

variable {s s' : Solver Rat} {e : Equation Rat} {c : Compiled Rat} {t : Tableau Rat}
variable {ps : List Pass} {key k : EquationKey} {i : InstalledEquation Rat} {x : Symbol}
variable {σ : Assignment}

/-- Every installed equation holds. -/
def Denoted (s : Solver Rat) (σ : Assignment) : Prop :=
  ∀ k i, s.equations.get? k = some i → i.Holds (s.valuation σ) σ

/-- The tableau is feasible, states the installed equations and measures their weighted errors. -/
structure Exact (s : Solver Rat) : Prop extends s.WellFormed where
  reduced : ∀ b r, s.tableau.row? b = some r → r.Reduced
  feasible : s.tableau.Feasible
  holds_iff : ∀ σ, s.tableau.Holds σ ↔ s.Denoted σ
  measures : s.tableau.Measures .objective s.penalty

theorem Exact.sound
    (h : s.Exact) :
    s.tableau.Sound :=
  ⟨h.consistent, h.reduced⟩

section Ownership

theorem update_eq_of_not_mem
    {l : List Symbol} {y : Rat}
    (hx : x ∉ l) :
    ∀ z ∈ l, Function.update σ x y z = σ z := by
  intro z hz
  refine Function.update_of_ne ?_ _ _
  rintro rfl
  exact hx hz

/-- An installed equation looks at no marker but its own. -/
theorem WellFormed.ignores_holds
    (h : s.WellFormed)
    (hx : x.isFree = false)
    (hxi : x ∉ i.markers.symbols) :
    Ignores x fun σ => i.Holds (s.valuation σ) σ := by
  intro σ y
  simp only [InstalledEquation.Holds, h.valuation_update hx,
    Markers.residual_congr (update_eq_of_not_mem hxi)]

theorem ignores_penalty
    (hx : ∀ k i, s.equations.get? k = some i → x ∉ i.markers.symbols) :
    Ignores x s.penalty := by
  intro σ y
  refine OrderedMap.total_congr fun entry hentry => ?_
  have hxi := hx entry.1 entry.2 (OrderedMap.get?_eq_some_iff.2 hentry)
  rw [Markers.errorSum_congr (update_eq_of_not_mem hxi)]

theorem WellFormed.ofRestricted_penalty
    (h : s.WellFormed) :
    OfRestricted s.penalty := by
  intro σ τ heq
  refine OrderedMap.total_congr fun entry hentry => ?_
  have hproper := (h.fits entry.1 entry.2 (OrderedMap.get?_eq_some_iff.2 hentry)).1
  rw [Markers.errorSum_congr fun z hz => heq z (hproper.isRestricted hz)]

end Ownership

section Entering

theorem Compiles.not_objective
    (hc : s.Compiles e c)
    (h : s.Exact) :
    ∀ x ∈ c.row.symbols, x.isObjective = false := by
  intro x hx
  rcases hc.origin x hx with ⟨_, _, y, hy, rfl | ⟨r, hr, hx⟩⟩ | hx
  · exact Symbol.isObjective_of_isFree (hc.numbered.isFree _ x hy)
  · rw [hc.grows.tableau] at hr
    exact h.feasible.not_objective y r hr x hx
  · exact hc.fits.1.isObjective hx

/-- A compiled row that the first phase has to bring to zero is over restricted symbols. -/
theorem Compiles.isRestricted_of_artificial
    (hc : s.Compiles e c)
    (h : s.Exact)
    (hchoice : c.solver.tableau.chooseEntry c.row = .artificial) :
    ∀ x ∈ c.row.symbols, x.isRestricted = true :=
  fun x hx => Symbol.isRestricted_iff.2
    ⟨(Tableau.chooseEntry_eq_artificial hchoice).1 x hx, hc.not_objective h x hx⟩

/-- A compiled row starts its first phase from a feasible solution. -/
theorem Exact.feasiblePhase
    (h : s.Exact)
    (hc : s.Compiles e c)
    (hreduced : c.row.Reduced)
    (hconstant : 0 ≤ c.row.constant)
    (hchoice : c.solver.tableau.chooseEntry c.row = .artificial) :
    c.solver.tableau.FeasiblePhase c.row c.artificial c.goal where
  toFirstPhase := Compiled.firstPhase hc
  sound := by
    rw [hc.grows.tableau]
    exact h.sound
  feasible := by
    rw [hc.grows.tableau]
    exact h.feasible
  reduced := hreduced
  isRestricted := hc.isRestricted_of_artificial h hchoice
  constant_nonneg := hconstant

/-- An accepted row is zero from then on, and nothing else has changed. -/
theorem Exact.enters_spec
    (h : s.Exact)
    (hc : s.Compiles e c)
    (hreduced : c.row.Reduced)
    (hconstant : 0 ≤ c.row.constant)
    (henters : c.Enters s' (some t) ps) :
    t.Sound ∧ t.Feasible ∧ (∀ σ, t.Holds σ ↔ s.tableau.Holds σ ∧ c.row.eval σ = 0) ∧
      t.Measures .objective s.penalty := by
  have hobjective := hc.not_objective h
  have hnonbasic := hc.nonbasic
  have hsound := h.sound
  have hfeasible := h.feasible
  have hmeasures := h.measures
  rw [← hc.grows.tableau] at hnonbasic hsound hfeasible hmeasures ⊢
  generalize ho : some t = o at henters
  cases henters with
  | @solved subject hchoice =>
      cases ho
      have hmem := (Tableau.chooseEntry_eq_solveFor hchoice).1
      exact ⟨hsound.install hmem hnonbasic hreduced,
        hfeasible.install_of_chooseEntry hsound hobjective hconstant hchoice,
        fun σ => Tableau.holds_install_iff hmem hnonbasic hreduced (hobjective _ hmem),
        hmeasures.install hmem hnonbasic (hobjective _ hmem)⟩
  | refused _ =>
      cases ho
  | tried hchoice =>
      obtain ⟨hsound', hfeasible', hholds, hmeasures'⟩ :=
        (h.feasiblePhase hc hreduced hconstant hchoice).tryAccept_spec ho.symm
      have hignores : Ignores c.artificial s.penalty := by
        refine ignores_penalty fun k i hk hx => ?_
        have hlt := h.marker_lt k i hk _ hx
        exact absurd (Nat.lt_of_lt_of_le hlt hc.grows.nextIndex) (Nat.lt_irrefl _)
      exact ⟨hsound', hfeasible', hholds,
        (hmeasures' _ hmeasures).congr fun σ _ => hignores σ 0⟩

theorem Exact.enters_ne_unbounded
    {o : Option (Tableau Rat)}
    (h : s.Exact)
    (hc : s.Compiles e c)
    (hreduced : c.row.Reduced)
    (hconstant : 0 ≤ c.row.constant)
    (henters : c.Enters s' o ps) :
    ∀ p ∈ ps, p.ending ≠ .unbounded := by
  cases henters with
  | solved _ => simp
  | refused _ => simp
  | tried hchoice =>
      intro p hp
      cases List.mem_singleton.1 hp
      exact (h.feasiblePhase hc hreduced hconstant hchoice).tryAccept_ne_unbounded

end Entering

section Preservation

theorem exact_new
    (settings : SolverSettings) :
    (new (K := Rat) settings).Exact := by
  have hrow : ∀ b r, (new (K := Rat) settings).tableau.row? b = some r →
      b = .objective ∧ r = Row.ofConstant 0 := by
    intro b r hb
    rcases Tableau.row?_addRow_eq_some hb with hb | ⟨_, hb⟩
    · exact hb
    · cases hb
  refine ⟨wellFormed_new settings, fun b r hb => ?_, ⟨fun b r hb hbr => ?_, fun b r hb => ?_,
    fun b r hb _ => ?_⟩, fun σ => ⟨fun _ k i hk => ?_, fun _ b r hb hbo => ?_⟩,
    Row.ofConstant 0, rfl, fun σ _ => ?_⟩
  · rw [(hrow b r hb).2]
    exact Row.reduced_ofConstant 0
  · rw [(hrow b r hb).1] at hbr
    cases hbr
  · rw [(hrow b r hb).2]
    simp
  · rw [(hrow b r hb).2]
    simp
  · cases hk
  · rw [(hrow b r hb).1] at hbo
    cases hbo
  · exact Row.eval_ofConstant 0

theorem Exact.minimise
    (h : s.Exact) :
    s.minimise.1.Exact := by
  obtain ⟨hsound, hfeasible, hagrees⟩ :=
    h.sound.minimise h.feasible .objective s.furtherPivots
  exact ⟨h.toWellFormed.minimise, hsound.reduced, hfeasible,
    fun σ => (hagrees.holds_iff σ).trans (h.holds_iff σ),
    hagrees.measures .objective _ rfl h.measures⟩

/-- A registered equation is one more condition. -/
theorem WellFormed.denoted_register_iff
    (h : s.WellFormed)
    (hc : s.Compiles e c)
    (hgrows : c.solver.Extends s') :
    (s'.register e c.markers t).Denoted σ ↔
      s.Denoted σ ∧ c.markers.residual (e.room (c.solver.valuation σ)) σ = 0 := by
  have hextends := hc.grows.trans hgrows
  have hold : ∀ k i, s.equations.get? k = some i →
      (i.Holds (s'.valuation σ) σ ↔ i.Holds (s.valuation σ) σ) := by
    intro k i hk
    simp only [InstalledEquation.Holds, hextends.room_eq (h.known k i hk)]
  have hnew : e.room (s'.valuation σ) = e.room (c.solver.valuation σ) :=
    hgrows.room_eq hc.known
  constructor
  · intro hσ
    refine ⟨fun k i hk => ?_, ?_⟩
    · have hne : k ≠ ⟨s'.nextKey⟩ := by
        rintro rfl
        rw [hextends.nextKey, h.get?_nextKey] at hk
        cases hk
      refine (hold k i hk).1 (hσ k i ?_)
      rw [get?_register, if_neg hne, hextends.equations, hk]
    · rw [← hnew]
      exact hσ ⟨s'.nextKey⟩ ⟨e, c.markers⟩ (get?_register.trans (if_pos rfl))
  · rintro ⟨hσ, hresidual⟩ k i hk
    rcases get?_of_register hk with ⟨_, rfl⟩ | hk
    · change c.markers.residual (e.room (s'.valuation σ)) σ = 0
      rw [hnew]
      exact hresidual
    · rw [hextends.equations] at hk
      exact (hold k i hk).2 (hσ k i hk)

theorem WellFormed.penalty_register
    (h : s.WellFormed)
    (hc : s.Compiles e c)
    (hgrows : c.solver.Extends s') :
    (s'.register e c.markers t).penalty σ =
      s.penalty σ + e.weight * c.markers.errorSum σ := by
  have hextends := hc.grows.trans hgrows
  have hnone : s'.equations.get? ⟨s'.nextKey⟩ = none := by
    rw [hextends.equations, hextends.nextKey, h.get?_nextKey]
  have hinsert := OrderedMap.total_insert_of_not_mem s'.equations
    (⟨e, c.markers⟩ : InstalledEquation Rat)
    (fun _ i => i.equation.weight * i.markers.errorSum σ) hnone
  refine hinsert.trans ?_
  rw [hextends.equations]
  rfl

theorem Exact.register
    (h : s.Exact)
    (hc : s.Compiles e c)
    (hreduced : c.row.Reduced)
    (hzero : ∀ σ, s.tableau.Holds σ → (c.row.eval σ = 0 ↔
      c.markers.residual (e.room (c.solver.valuation σ)) σ = 0))
    (hconstant : 0 ≤ c.row.constant)
    (henters : c.Enters s' (some t) ps) :
    (s'.register e c.markers (t.chargeAll c.markers e.weight)).Exact := by
  obtain ⟨hsound, hfeasible, hholds, hmeasures⟩ :=
    h.enters_spec hc hreduced hconstant henters
  obtain ⟨hconsistent, hwithin⟩ := henters.consistent hc
  have hrestricted : ∀ x ∈ c.markers.errors, x.isRestricted = true :=
    fun x hx => hc.fits.1.isRestricted_of_mem_errors hx
  have hissued : ∀ x ∈ c.markers.errors, s'.Issued x :=
    fun x hx => hc.issued_marker henters.grows x (Markers.mem_symbols_of_mem_errors hx)
  obtain ⟨hsound', hfeasible', hholds', hmeasures'⟩ :=
    Tableau.chargeAll_spec hsound hfeasible hmeasures hrestricted e.weight
  refine ⟨h.toWellFormed.register hc henters.grows (henters.numbered hc.numbered)
    hsound'.toConsistent (hwithin.chargeAll hissued _), hsound'.reduced, hfeasible',
    fun σ => ?_, hmeasures'.congr fun σ _ => ?_⟩
  · refine (hholds' σ).trans ((hholds σ).trans ?_)
    rw [h.toWellFormed.denoted_register_iff hc henters.grows, ← h.holds_iff]
    exact and_congr_right fun hσ => hzero σ hσ
  · exact (h.toWellFormed.penalty_register hc henters.grows).symm

/-- The installed equations without one of them. -/
def DenotedWithout (s : Solver Rat) (key : EquationKey) (σ : Assignment) : Prop :=
  ∀ k i, k ≠ key → s.equations.get? k = some i → i.Holds (s.valuation σ) σ

theorem denoted_withdraw_iff :
    (s.withdraw key i).Denoted σ ↔ s.DenotedWithout key σ := by
  constructor
  · intro hσ k j hne hk
    refine hσ k j ?_
    rw [get?_withdraw, if_neg hne, hk]
  · intro hσ k j hk
    exact hσ k j (get?_of_withdraw hk).1 (get?_of_withdraw hk).2

theorem denoted_iff_denotedWithout
    (hk : s.equations.get? key = some i) :
    s.Denoted σ ↔ s.DenotedWithout key σ ∧ i.Holds (s.valuation σ) σ := by
  constructor
  · intro hσ
    exact ⟨fun k j _ hj => hσ k j hj, hσ key i hk⟩
  · rintro ⟨hσ, hi⟩ k j hj
    by_cases hkk : k = key
    · subst hkk
      rw [hk] at hj
      cases hj
      exact hi
    · exact hσ k j hkk hj

theorem penalty_withdraw
    (hk : s.equations.get? key = some i) :
    s.penalty σ = (s.withdraw key i).penalty σ + i.equation.weight * i.markers.errorSum σ := by
  have herase := OrderedMap.total_erase_of_mem s.equations
    (fun _ i => i.equation.weight * i.markers.errorSum σ) hk
  exact (eq_sub_iff_add_eq.1 herase).symm

theorem Exact.withdraw
    (h : s.Exact)
    (hk : s.equations.get? key = some i) :
    (s.withdraw key i).Exact := by
  have hproper := (h.fits key i hk).1
  have hnodup := h.nodup key i hk
  have hfree : ∀ x ∈ i.markers.symbols, x.isFree = false :=
    fun x hx => (Symbol.isRestricted_iff.1 (hproper.isRestricted hx)).1
  have hdisjoint : ∀ x ∈ i.markers.symbols, ∀ k j, k ≠ key →
      s.equations.get? k = some j → x ∉ j.markers.symbols :=
    fun x hx k j hne hj => h.disjoint key i k j hk hj (Ne.symm hne) x hx
  have hholds : ∀ σ, s.tableau.Holds σ ↔ s.DenotedWithout key σ ∧
      σ i.markers.marker = i.markers.solved (i.equation.room (s.valuation σ)) σ := by
    intro σ
    rw [h.holds_iff, denoted_iff_denotedWithout hk, InstalledEquation.Holds,
      Markers.residual_eq_zero_iff]
  have hE : ∀ x ∈ i.markers.symbols, Ignores x (s.DenotedWithout key) := by
    intro x hx σ y
    refine propext (forall_congr' fun k => forall_congr' fun j => ?_)
    refine imp_congr_right fun hne => imp_congr_right fun hj => ?_
    exact iff_of_eq
      (h.toWellFormed.ignores_holds (hfree x hx) (hdisjoint x hx k j hne hj) σ y)
  have hq : Ignores i.markers.marker
      fun σ => i.markers.solved (i.equation.room (s.valuation σ)) σ := by
    intro σ y
    beta_reduce
    rw [h.toNumbered.valuation_update (hfree _ i.markers.marker_mem_symbols),
      Markers.solved_update hnodup]
  have hf : ∀ x ∈ i.markers.symbols, Ignores x (s.withdraw key i).penalty := fun x hx =>
    ignores_penalty fun k j hj =>
      hdisjoint x hx k j (get?_of_withdraw hj).1 (get?_of_withdraw hj).2
  have hwithdrawn := h.toWellFormed.withdraw hk
  obtain ⟨hsound, hfeasible, hholds', hmeasures⟩ := Tableau.retract_spec h.sound h.feasible
    (fun b r hb => ⟨(h.within b r hb).1.2, fun x hx => ((h.within b r hb).2 x hx).2⟩)
    hproper hholds (h.measures.congr fun σ _ => penalty_withdraw hk) hE hq hf
    hwithdrawn.ofRestricted_penalty
  exact ⟨hwithdrawn, hsound.reduced, hfeasible,
    fun σ => (hholds' σ).trans denoted_withdraw_iff.symm, hmeasures⟩

end Preservation

section Calls

/-- Handing out symbols changes nothing that the tableau expresses. -/
theorem Exact.extend
    (h : s.Exact)
    (hgrows : s.Extends s')
    (hnumbered : s'.Numbered) :
    s'.Exact := by
  have hdenoted : ∀ σ, s'.Denoted σ ↔ s.Denoted σ := by
    intro σ
    unfold Denoted
    rw [hgrows.equations]
    refine forall_congr' fun k => forall_congr' fun i => imp_congr_right fun hk => ?_
    simp only [InstalledEquation.Holds, hgrows.room_eq (h.known k i hk)]
  have hpenalty : s'.penalty = s.penalty := by
    funext σ
    simp only [penalty, hgrows.equations]
  refine ⟨h.toWellFormed.extend hgrows hnumbered, ?_, ?_, fun σ => ?_, ?_⟩
  · rw [hgrows.tableau]
    exact h.reduced
  · rw [hgrows.tableau]
    exact h.feasible
  · rw [hgrows.tableau, hdenoted]
    exact h.holds_iff σ
  · rw [hgrows.tableau, hpenalty]
    exact h.measures

theorem Exact.add
    (h : s.Exact)
    (e : Equation Rat) :
    (s.add e).solver.Exact := by
  have hc := h.toNumbered.compiles e
  obtain ⟨s', o, ps, henters, hadd⟩ := Compiled.exists_enters s e
  rw [hadd]
  cases o with
  | none =>
      exact h.extend (hc.grows.trans henters.grows) (henters.numbered hc.numbered)
  | some t =>
      rw [Compiled.conclude, enforce_solver]
      exact (h.register hc (reduced_compile s e)
        (fun σ hσ => h.toNumbered.eval_compile_eq_zero_iff hσ e)
        (constant_compile_nonneg s e) henters).minimise

theorem Exact.remove
    (h : s.Exact)
    (key : EquationKey) :
    (s.remove key).solver.Exact := by
  cases hk : s.equations.get? key with
  | none =>
      rw [remove_of_get?_eq_none hk]
      exact h
  | some i =>
      rw [remove_of_get? hk]
      exact (h.withdraw hk).minimise

theorem exact_run
    (settings : SolverSettings) (calls : List (Call Rat)) :
    ((new settings).run calls).Exact :=
  run_induction (fun _ e h => h.add e) (fun _ key h => h.remove key) (fun _ h => h.minimise)
    (exact_new settings) calls

end Calls

end Solver
end LinearLayout
