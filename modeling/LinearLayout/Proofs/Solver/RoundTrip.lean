import LinearLayout.Proofs.Doubles
import LinearLayout.Proofs.Solver.Preferred
import LinearLayout.Proofs.Solver.Settled
import LinearLayout.Proofs.Tableau.Detached

/-!
# Adding and removing without a trace

An equation over variables that nothing else depends on is accepted, and when it is removed again
the solver tells nothing of it: the rows, the installed equations and all values are what they
were.  Nothing is rounded on the way that is not undone, so this holds on doubles as well.

What is asked of the solver is only that its violations are minimal when the equation comes.
-/

namespace LinearLayout

variable {K : Type} [Scalar K]

/-- Clamped weights are kept by a row, lower no objective, and are cancelled by their negations. -/
def Scalar.HasWeights (K : Type) [Scalar K] : Prop :=
  ∀ w : K, IsWeight (clampWeight w)

theorem Scalar.hasWeights_float :
    HasWeights Float :=
  fun w => ⟨Double.isNegligible_clampWeight w, Double.less_clampWeight_zero w, by
    rw [Double.clampWeight_add_neg]
    decide⟩

namespace Equation

/--
The coefficient of a variable in a row: its terms are added one after the other, and whenever
their sum cancels it is dropped.
-/
def combined (e : Equation K) (v : Variable) : Option K :=
  (e.terms.filter (·.var = v)).foldl (fun sum term => Row.accumulate term.coefficient sum) none

end Equation

namespace Solver

variable {s : Solver K} {e : Equation K} {terms : List (Term K)} {acc : Row K × Solver K}
variable {v : Variable} {x y : Symbol}

/-- No variable of the equation is basic, and no row mentions one. -/
def Unused (s : Solver K) (e : Equation K) : Prop :=
  ∀ term ∈ e.terms, ∀ x, s.symbols.get? term.var = some x → s.tableau.Fresh x

section Combined

/-- Nonbasic variables are added up term by term. -/
theorem get?_cells_foldl_addTerm
    (hnumbered : (terms.foldl addTerm acc).2.Numbered)
    (hnonbasic : ∀ term ∈ terms, ∀ x,
      (terms.foldl addTerm acc).2.symbols.get? term.var = some x →
        acc.2.tableau.row? x = none)
    (hv : (terms.foldl addTerm acc).2.symbols.get? v = some y) :
    (terms.foldl addTerm acc).1.cells.get? y =
      (terms.filter (·.var = v)).foldl (fun sum term => Row.accumulate term.coefficient sum)
        (acc.1.cells.get? y) := by
  induction terms generalizing acc with
  | nil =>
      rfl
  | cons term terms ih =>
      have hstep := addTerm_snd acc term
      have hget : ((term :: terms).foldl addTerm acc).2.symbols.get? term.var =
          some (acc.2.symbolOf term.var).1 := by
        refine (extends_foldl_addTerm terms (addTerm acc term)).symbols _ _ ?_
        rw [hstep]
        exact get?_symbolOf acc.2 term.var
      have hrow := hnonbasic term List.mem_cons_self _ hget
      have hrest : ∀ other ∈ terms, ∀ x,
          (terms.foldl addTerm (addTerm acc term)).2.symbols.get? other.var = some x →
            (addTerm acc term).2.tableau.row? x = none := by
        rw [tableau_addTerm]
        exact fun other hother => hnonbasic other (List.mem_cons_of_mem _ hother)
      refine (ih hnumbered hrest hv).trans ?_
      rw [addTerm_eq_of_nonbasic hrow, Row.get?_addTerm]
      by_cases hvar : term.var = v
      · subst hvar
        have hy : y = (acc.2.symbolOf term.var).1 := Option.some.inj (hv.symm.trans hget)
        rw [if_pos hy, List.filter_cons_of_pos (by simp), List.foldl_cons, hy]
      · have hy : y ≠ (acc.2.symbolOf term.var).1 := by
          rintro rfl
          exact hvar (hnumbered.injective _ _ _ hget hv)
        rw [if_neg hy, List.filter_cons_of_neg (by simpa using hvar)]

/-- The symbol of an unused variable is new to the tableau, whether or not it was there before. -/
theorem Unused.fresh
    (hunused : s.Unused e)
    (h : s.Numbered) :
    ∀ term ∈ e.terms, ∀ x, (s.difference e).2.symbols.get? term.var = some x →
      s.tableau.Fresh x := by
  intro term hterm x hx
  rcases get?_foldl_addTerm_eq_some hx with hx | ⟨_, hle, _⟩
  · exact hunused term hterm x hx
  · exact h.fresh_of_le hle

/-- An unused variable stands in the difference with its combined coefficient. -/
theorem Unused.get?_difference
    (hunused : s.Unused e)
    (h : s.Numbered)
    (hv : (s.difference e).2.symbols.get? v = some y) :
    (s.difference e).1.cells.get? y = e.combined v :=
  get?_cells_foldl_addTerm (h.difference e).numbered
    (fun term hterm x hx => (hunused.fresh h term hterm x hx).1) hv

/-- Only a variable of the equation has a combined coefficient. -/
theorem exists_term_of_combined
    {k : K}
    (h : e.combined v = some k) :
    ∃ term ∈ e.terms, term.var = v := by
  by_contra hnone
  have hfilter : e.terms.filter (·.var = v) = [] :=
    List.filter_eq_nil_iff.2 fun term hterm => by
      simpa using fun hvar => hnone ⟨term, hterm, hvar⟩
  rw [Equation.combined, hfilter] at h
  cases h

end Combined

section Compiled

variable {r : Row K} {required : Bool}

theorem not_mem_of_index_lt
    {role : Role}
    (h : ∀ x ∈ r.symbols, x.index < s.nextIndex) :
    (s.fresh role).1 ∉ r.symbols :=
  fun hmem => Nat.lt_irrefl _ (h _ hmem)

theorem marker_mem_compileEqual
    (hunits : Scalar.HasUnits K)
    (h : ∀ x ∈ r.symbols, x.index < s.nextIndex) :
    (s.compileEqual r required).markers.marker ∈ (s.compileEqual r required).row.symbols := by
  unfold compileEqual
  split
  · exact Row.mem_symbols_addTerm_self hunits.one (not_mem_of_index_lt h)
  · refine (Row.mem_symbols_addTerm_of_ne ?_).2
      (Row.mem_symbols_addTerm_self hunits.neg_one (not_mem_of_index_lt h))
    simp [fresh, Markers.marker]

theorem marker_mem_compileSurplus
    (hunits : Scalar.HasUnits K)
    (h : ∀ x ∈ r.symbols, x.index < s.nextIndex) :
    (s.compileSurplus r required).markers.marker ∈
      (s.compileSurplus r required).row.symbols := by
  have hslack : (s.fresh .slack).1 ∈ (r.addTerm (s.fresh .slack).1 (-1)).symbols :=
    Row.mem_symbols_addTerm_self hunits.neg_one (not_mem_of_index_lt h)
  unfold compileSurplus
  dsimp only
  split
  · exact hslack
  · refine (Row.mem_symbols_addTerm_of_ne ?_).2 hslack
    simp [fresh, Markers.marker]

theorem ne_fresh_of_isFree
    {role : Role}
    (hx : x.isFree = true)
    (hrole : role ≠ .free) :
    x ≠ (s.fresh role).1 := by
  rintro rfl
  exact hrole (by simpa [Symbol.isFree, fresh] using hx)

theorem mem_symbols_compileEqual
    (hx : x.isFree = true) :
    x ∈ (s.compileEqual r required).row.symbols ↔ x ∈ r.symbols := by
  unfold compileEqual
  split
  · exact Row.mem_symbols_addTerm_of_ne (ne_fresh_of_isFree hx (by decide))
  · exact (Row.mem_symbols_addTerm_of_ne (ne_fresh_of_isFree hx (by decide))).trans
      (Row.mem_symbols_addTerm_of_ne (ne_fresh_of_isFree hx (by decide)))

theorem mem_symbols_compileSurplus
    (hx : x.isFree = true) :
    x ∈ (s.compileSurplus r required).row.symbols ↔ x ∈ r.symbols := by
  have hslack : x ∈ (r.addTerm (s.fresh .slack).1 (-1)).symbols ↔ x ∈ r.symbols :=
    Row.mem_symbols_addTerm_of_ne (ne_fresh_of_isFree hx (by decide))
  unfold compileSurplus
  dsimp only
  split
  · exact hslack
  · exact (Row.mem_symbols_addTerm_of_ne (ne_fresh_of_isFree hx (by decide))).trans hslack

/-- The marker of an equation stands in its compiled row. -/
theorem Numbered.marker_mem_compile
    (h : s.Numbered)
    (hunits : Scalar.HasUnits K)
    (e : Equation K) :
    (s.compile e).markers.marker ∈ (s.compile e).row.symbols := by
  have hpartial : s.Partial (s.difference e) := h.difference e
  have hlt : ∀ x ∈ (s.difference e).1.symbols, x.index < (s.difference e).2.nextIndex :=
    fun x hx => (hpartial.numbered.issued_of_stems (stems_difference s e x hx)).1
  have hsigned : (s.compileSigned e).markers.marker ∈ (s.compileSigned e).row.symbols := by
    unfold compileSigned
    cases e.relation with
    | equal => exact marker_mem_compileEqual hunits hlt
    | atLeast => exact marker_mem_compileSurplus hunits hlt
    | atMost =>
        refine marker_mem_compileSurplus hunits fun x hx => ?_
        rw [Row.symbols_scale] at hx
        exact hlt x hx
  unfold compile
  dsimp only
  split
  · rw [Row.symbols_scale]
    exact hsigned
  · exact hsigned

/-- The unknowns of a compiled row are those of the difference of the two sides. -/
theorem mem_symbols_compile
    (hx : x.isFree = true) :
    x ∈ (s.compile e).row.symbols ↔ x ∈ (s.difference e).1.symbols := by
  have hsigned : x ∈ (s.compileSigned e).row.symbols ↔ x ∈ (s.difference e).1.symbols := by
    unfold compileSigned
    cases e.relation with
    | equal => exact mem_symbols_compileEqual hx
    | atLeast => exact mem_symbols_compileSurplus hx
    | atMost =>
        refine (mem_symbols_compileSurplus hx).trans ?_
        rw [Row.symbols_scale]
        rfl
  unfold compile
  dsimp only
  split
  · rw [Row.symbols_scale]
    exact hsigned
  · exact hsigned

end Compiled

section RoundTrip

/-- A weight is charged for errors only, and only preferences have errors. -/
theorem Compiles.isWeight
    {c : Compiled K}
    (hc : s.Compiles e c)
    (hweights : Scalar.HasWeights K) :
    ∀ error ∈ c.markers.errors, Scalar.IsWeight (e.strength.weight?.getD 0) := by
  intro error herror
  have hpreferred : e.strength.isRequired = false := by
    have hfits := hc.fits.2
    cases hm : c.markers with
    | rigid dummy =>
        rw [hm] at herror
        cases herror
    | elastic plus minus =>
        rw [hm] at hfits
        exact hfits.2
    | bounded slack =>
        rw [hm] at herror
        cases herror
    | yielding slack error =>
        rw [hm] at hfits
        exact hfits.2
  obtain ⟨p, hp⟩ := e.strength.exists_normalized_eq
  rw [Strength.isRequired, ← hp] at hpreferred
  rw [Strength.weight?, ← hp]
  cases p with
  | required => cases hpreferred
  | preferred w => exact hweights w

theorem Compiles.nodup_errors
    {c : Compiled K}
    (hc : s.Compiles e c) :
    c.markers.errors.Nodup := by
  have hnodup := hc.nodup
  cases hm : c.markers with
  | rigid dummy => exact List.nodup_nil
  | elastic plus minus =>
      rw [hm] at hnodup
      exact hnodup
  | bounded slack => exact List.nodup_nil
  | yielding slack error => exact List.nodup_singleton error

/-- An unused equation is solved for an unknown that no row of the solver mentions. -/
theorem Numbered.exists_detached
    (h : s.Numbered)
    (hunits : Scalar.HasUnits K)
    (hunused : s.Unused e)
    (hcombined : ∃ v k, e.combined v = some k) :
    ∃ subject, (s.compile e).solver.tableau.chooseEntry (s.compile e).row = .solveFor subject ∧
      s.tableau.Detached (s.compile e).row subject (s.compile e).markers := by
  have hc := h.compiles e
  obtain ⟨v, k, hk⟩ := hcombined
  obtain ⟨term, hterm, rfl⟩ := exists_term_of_combined hk
  obtain ⟨y, hy⟩ : ∃ y, (s.difference e).2.symbols.get? term.var = some y :=
    get?_foldl_addTerm hterm
  have hyfree : y.isFree = true := (h.difference e).numbered.isFree _ y hy
  have hymem : y ∈ (s.compile e).row.symbols :=
    (mem_symbols_compile hyfree).2
      (Row.mem_symbols_iff.2 ⟨k, (hunused.get?_difference h hy).trans hk⟩)
  cases hfind : (s.compile e).row.symbols.find? Symbol.isFree with
  | none => exact absurd hyfree (List.find?_eq_none.1 hfind y hymem)
  | some subject =>
      have hmem := List.mem_of_find?_eq_some hfind
      have hfree : subject.isFree = true := List.find?_some hfind
      have hfresh : s.tableau.Fresh subject := by
        rcases hc.origin subject hmem with ⟨other, hother, z, hz, hstems⟩ | hmarker
        · rw [compile_symbols] at hz
          have hz' := hunused.fresh h other hother z hz
          rcases hstems with rfl | ⟨r, hr, _⟩
          · exact hz'
          · rw [hc.grows.tableau, hz'.1] at hr
            cases hr
        · rw [(Symbol.isRestricted_iff.1 (hc.fits.1.isRestricted hmarker)).1] at hfree
          cases hfree
      refine ⟨subject, ?_, h.consistent, hc.nonbasic, hmem, hfree, hfresh, hc.fits.1,
        hc.nodup_errors, fun x hx => h.fresh_of_le (hc.new x hx).1, h.marker_mem_compile hunits e⟩
      simp only [Tableau.chooseEntry, hfind]

/-- A solver whose violations are minimal stays as it is when they are minimised. -/
theorem Settled.minimise_fst
    (h : s.Settled) :
    s.minimise.1 = s := by
  rw [Solver.minimise_fst, Tableau.minimise_of_entering?_eq_none h]
  rfl

/-- The second solver shows everything that the first one shows, and has the same rows. -/
structure Restores (r s : Solver K) : Prop where
  rows : r.tableau.rows = s.tableau.rows
  equations : r.equations = s.equations
  value : ∀ v, r.value v = s.value v
  objectiveValue : r.objectiveValue = s.objectiveValue

/-- Symbols that have been handed out on the way change no value: their unknowns are in no row. -/
theorem Numbered.restores
    {r : Solver K}
    (h : s.Numbered)
    (hsymbols : r.symbols = (s.compile e).solver.symbols)
    (hrows : r.tableau.rows = s.tableau.rows)
    (hequations : r.equations = s.equations) :
    r.Restores s := by
  have hrow : ∀ x, r.tableau.row? x = s.tableau.row? x :=
    fun x => congrArg (fun rows => rows.get? x) hrows
  refine ⟨hrows, hequations, fun v => ?_, ?_⟩
  · have hbind : (r.symbols.get? v).bind r.tableau.row? =
        (s.symbols.get? v).bind s.tableau.row? := by
      rw [hsymbols]
      cases hv : s.symbols.get? v with
      | some x =>
          rw [(h.compiles e).grows.symbols v x hv, Option.bind_some, Option.bind_some, hrow]
      | none =>
          cases hnew : (s.compile e).solver.symbols.get? v with
          | none => rfl
          | some x =>
              rcases get?_compile_eq_some hnew with hold | ⟨_, hle, _⟩
              · rw [hv] at hold
                cases hold
              · rw [Option.bind_some, hrow, (h.fresh_of_le hle).1]
                rfl
    rw [value, value, hbind]
  · rw [objectiveValue, objectiveValue, hrow]

/-- An unused equation is accepted, and its removal undoes all that its addition has done. -/
theorem WellFormed.remove_add
    (h : s.WellFormed)
    (hunits : Scalar.HasUnits K)
    (hweights : Scalar.HasWeights K)
    (hsettled : s.Settled)
    (hunused : s.Unused e)
    (hcombined : ∃ v k, e.combined v = some k) :
    (s.add e).result = .ok ⟨s.nextKey⟩ ∧
      ((s.add e).solver.remove ⟨s.nextKey⟩).result = .ok () ∧
      ((s.add e).solver.remove ⟨s.nextKey⟩).solver.Restores s := by
  have hc := h.toNumbered.compiles e
  have hw := hc.isWeight hweights
  obtain ⟨subject, hchoice, hdetached⟩ :=
    h.toNumbered.exists_detached hunits hunused hcombined
  let c := s.compile e
  let w := e.strength.weight?.getD 0
  let added := c.solver.register e c.markers (s.tableau.charged c.row subject c.markers w)
  have hadd : s.add e = c.solver.enforce e c.markers (s.tableau.install subject c.row) [] := by
    rw [← hc.grows.tableau]
    simp only [Solver.add, hchoice, c]
  have hcharged : added.Settled := hdetached.entering?_charged hw hsettled
  have hadded : (s.add e).solver = added := by
    rw [hadd, enforce_solver]
    exact hcharged.minimise_fst
  have hkey : added.equations.get? ⟨s.nextKey⟩ = some ⟨e, c.markers⟩ := by
    rw [get?_register, hc.grows.nextKey, if_pos rfl]
  have hrows : (added.withdraw ⟨s.nextKey⟩ ⟨e, c.markers⟩).tableau.rows = s.tableau.rows :=
    hdetached.rows_retract hw
  have hequations : (added.withdraw ⟨s.nextKey⟩ ⟨e, c.markers⟩).equations = s.equations := by
    change (c.solver.equations.insert ⟨c.solver.nextKey⟩ ⟨e, c.markers⟩).erase ⟨s.nextKey⟩ =
      s.equations
    rw [hc.grows.equations, hc.grows.nextKey]
    exact OrderedMap.erase_insert_of_not_mem _ (OrderedMap.get?_eq_none_iff.1 h.get?_nextKey)
  have hremoved : (added.withdraw ⟨s.nextKey⟩ ⟨e, c.markers⟩).Settled :=
    Tableau.entering?_of_rows hrows hsettled
  refine ⟨?_, ?_, ?_⟩
  · rw [hadd, ← hc.grows.nextKey]
    rfl
  · rw [hadded, remove_of_get? hkey]
  · rw [hadded, remove_of_get? hkey, hremoved.minimise_fst]
    exact h.toNumbered.restores rfl hrows hequations

/--
On doubles, in every state that a run can reach: if no slack lowers the objective, an equation over
variables that are nonbasic and mentioned by no row is accepted as soon as one of them keeps a
coefficient, whatever its relation, its constant and its weight are.  When it is removed again, the
rows with their cells, their constants and their order are those of before, and so are the objective
row, the installed equations with their keys, the values of all variables and the violation.
-/
theorem remove_add_restores
    (settings : SolverSettings) (calls : List (Call Float)) (e : Equation Float)
    (hsettled : ((new settings).run calls).Settled)
    (hunused : ((new settings).run calls).Unused e)
    (hcombined : ∃ v k, e.combined v = some k) :
    let s := (new settings).run calls
    let o := s.add e
    let r := o.solver.remove ⟨s.nextKey⟩
    o.result = .ok ⟨s.nextKey⟩ ∧ r.result = .ok () ∧ r.solver.Restores s :=
  (wellFormed_run settings calls).remove_add Scalar.hasUnits_float Scalar.hasWeights_float
    hsettled hunused hcombined

end RoundTrip

section Spare

/-- The columns tell whether a variable is unused. -/
theorem Numbered.unused_of_all
    (h : s.Numbered)
    (hall : (e.terms.all fun term => (s.symbols.get? term.var).all fun x =>
      (s.tableau.row? x).isNone && !s.tableau.isReferenced x) = true) :
    s.Unused e := by
  intro term hterm x hx
  have hterm' := List.all_eq_true.1 hall term hterm
  rw [hx, Option.all_some, Bool.and_eq_true, Option.isNone_iff_eq_none, Bool.not_eq_true'] at hterm'
  exact ⟨hterm'.1, h.consistent.not_mem_of_isReferenced hterm'.2⟩

/-- A pin that is taken back leaves its variable unused, and a preference stays in force. -/
def spareCalls : List (Call Float) :=
  [.add (.pin ⟨⟨2⟩, .top⟩ 7), .remove ⟨0⟩,
    .add ⟨[⟨1, ⟨⟨1⟩, .left⟩⟩], .atLeast, 2.5, (Priority.preferred 0.1).strength⟩]

/-- A preference between the unused variable and one that the solver has never seen. -/
def spareEquation : Equation Float :=
  ⟨[⟨3, ⟨⟨2⟩, .top⟩⟩, ⟨-0.5, ⟨⟨2⟩, .top⟩⟩, ⟨-1, ⟨⟨3⟩, .width⟩⟩], .atMost, 10,
    (Priority.preferred 0.3).strength⟩

theorem remove_add_restores_spare :
    let s := (new {}).run spareCalls
    let o := s.add spareEquation
    let r := o.solver.remove ⟨s.nextKey⟩
    o.result = .ok ⟨s.nextKey⟩ ∧ r.result = .ok () ∧ r.solver.Restores s := by
  have hsettled : ((new {}).run spareCalls).tableau.entering? .objective = none := by
    decide +kernel
  have hunused : ((new {}).run spareCalls).Unused spareEquation :=
    (wellFormed_run {} spareCalls).toNumbered.unused_of_all (by decide +kernel)
  have hcombined : spareEquation.combined ⟨⟨2⟩, .top⟩ = some 2.5 := by
    decide +kernel
  exact remove_add_restores {} spareCalls spareEquation hsettled hunused ⟨_, _, hcombined⟩

end Spare

end Solver
end LinearLayout
