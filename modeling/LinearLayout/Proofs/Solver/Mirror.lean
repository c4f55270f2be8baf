import LinearLayout.Proofs.Solver.WellFormed
import LinearLayout.Proofs.Tableau.Lockstep

/-!
# Runs without their refused additions

A refused addition may leave new symbols behind, and variables that had none before.  So the run
that never made the addition numbers its symbols differently.  The two runs are followed side by
side through a correspondence of their symbols that grows as symbols are handed out.  All replies
are equal: a refused addition cannot be noticed by what comes after it.

Nothing is assumed of the arithmetic.
-/

namespace LinearLayout

open Relator

variable {K : Type} [Scalar K] {R Q : Symbol → Symbol → Prop} {x y i j : Symbol}

/-- The correspondence with one more pair. -/
def Symbol.withPair (R : Symbol → Symbol → Prop) (x y i j : Symbol) : Prop :=
  R i j ∨ (i = x ∧ j = y)

theorem Symbol.Matching.withPair
    (h : Symbol.Matching R)
    (hx : ∀ j, ¬ R x j)
    (hy : ∀ i, ¬ R i y)
    (hrole : x.role = y.role) :
    Symbol.Matching (Symbol.withPair R x y) := by
  refine ⟨⟨?_, ?_⟩, ?_, Or.inl h.objective⟩
  · rintro i i' j (hij | ⟨rfl, rfl⟩) (hij' | ⟨rfl, hj⟩)
    · exact h.unique.1 hij hij'
    · exact absurd (hj ▸ hij) (hy _)
    · exact absurd hij' (hy _)
    · rfl
  · rintro i j j' (hij | ⟨rfl, rfl⟩) (hij' | ⟨hi, rfl⟩)
    · exact h.unique.2 hij hij'
    · exact absurd (hi ▸ hij) (hx _)
    · exact absurd hij' (hx _)
    · rfl
  · rintro i j (hij | ⟨rfl, rfl⟩)
    · exact h.role i j hij
    · exact hrole

/-- The same equation with corresponding markers. -/
def InstalledEquation.Related (R : Symbol → Symbol → Prop) (i i' : InstalledEquation K) : Prop :=
  i.equation = i'.equation ∧ Markers.Related R i.markers i'.markers

namespace Solver

variable {s s' u u' : Solver K} {e : Equation K} {v : Variable} {t t' : Tableau K}
variable {markers markers' : Markers}

/--
The second solver is the first with other symbols, and it may know more variables.  A symbol that
it has for such a variable corresponds to none.
-/
structure Mirrors (R : Symbol → Symbol → Prop) (s s' : Solver K) : Prop where
  matching : Symbol.Matching R
  settings : s.settings = s'.settings
  nextKey : s.nextKey = s'.nextKey
  tableau : Tableau.Related R s.tableau s'.tableau
  equations : OrderedMap.Related Eq (InstalledEquation.Related R) s.equations s'.equations
  known : ∀ v x, s.symbols.get? v = some x → ∃ y, s'.symbols.get? v = some y ∧ R x y
  unclaimed : ∀ v y, s'.symbols.get? v = some y → s.symbols.get? v = none → ∀ x, ¬ R x y
  issued : ∀ x y, R x y → x.index < s.nextIndex ∧ y.index < s'.nextIndex

section Symbols

theorem mirrors_new
    (settings : SolverSettings) :
    Mirrors (fun i j => i = .objective ∧ j = .objective) (new (K := K) settings)
      (new settings) := by
  have hmatching : Symbol.Matching fun i j => i = .objective ∧ j = .objective := by
    refine ⟨⟨?_, ?_⟩, ?_, rfl, rfl⟩
    · rintro i i' j ⟨rfl, _⟩ ⟨rfl, _⟩
      rfl
    · rintro i j j' ⟨_, rfl⟩ ⟨_, rfl⟩
      rfl
    · rintro i j ⟨rfl, rfl⟩
      rfl
  refine ⟨hmatching, rfl, rfl, ?_, OrderedMap.related_empty, fun v x h => ?_, fun v y h => ?_, ?_⟩
  · exact Tableau.related_empty.addRow hmatching.unique hmatching.objective
      (Row.related_ofConstant 0)
  · cases h
  · cases h
  · rintro x y ⟨rfl, rfl⟩
    exact ⟨Nat.one_pos, Nat.one_pos⟩

/-- What the rows of the second tableau are about corresponds to something. -/
theorem Mirrors.exists_of_row?
    {r' : Row K}
    (h : Mirrors R s s')
    (hb : s'.tableau.row? y = some r') :
    (∃ x, R x y) ∧ ∀ j ∈ r'.symbols, ∃ i, R i j := by
  obtain ⟨x, r, hxy, _, hr⟩ := h.tableau.rows.exists_of_get? hb
  refine ⟨⟨x, hxy⟩, fun j hj => ?_⟩
  obtain ⟨c, hc⟩ := OrderedMap.mem_keys_iff.1 hj
  obtain ⟨i, _, hij, _⟩ := hr.cells.exists_of_get? hc
  exact ⟨i, hij⟩

theorem Mirrors.column_eq_nil
    (h : Mirrors R s s')
    (hs' : s'.Numbered)
    (hy : ∀ i, ¬ R i y) :
    s'.tableau.column y = [] := by
  refine List.eq_nil_iff_forall_not_mem.2 fun b hb => ?_
  obtain ⟨r, hr, hmem⟩ := (hs'.consistent.mem_column_iff y b).1 hb
  obtain ⟨i, hi⟩ := (h.exists_of_row? hr).2 y hmem
  exact hy i hi

theorem Numbered.column_eq_nil
    (h : s.Numbered)
    (hx : s.nextIndex ≤ x.index) :
    s.tableau.column x = [] := by
  refine List.eq_nil_iff_forall_not_mem.2 fun b hb => ?_
  obtain ⟨r, hr, hmem⟩ := (h.consistent.mem_column_iff x b).1 hb
  exact (h.fresh_of_le hx).2 b r hr hmem

/-- A new symbol of the first solver may correspond to any symbol that is not yet taken. -/
theorem Mirrors.withPair
    (h : Mirrors R s s')
    (hs : s.Numbered)
    (hs' : s'.Numbered)
    (hu : s.Extends u)
    (hu' : s'.Extends u')
    (hx : s.nextIndex ≤ x.index ∧ x.index < u.nextIndex)
    (hy : ∀ i, ¬ R i y)
    (hyu : y.index < u'.nextIndex)
    (hrole : x.role = y.role)
    (hknown : ∀ v i, u.symbols.get? v = some i →
      s.symbols.get? v = some i ∨ (i = x ∧ u'.symbols.get? v = some y))
    (hunclaimed : ∀ v j, u'.symbols.get? v = some j → u.symbols.get? v = none →
      s'.symbols.get? v = some j ∧ j ≠ y) :
    Mirrors (Symbol.withPair R x y) u u' := by
  have hmono : ∀ i j, R i j → Symbol.withPair R x y i j := fun _ _ hij => Or.inl hij
  have hxR : ∀ j, ¬ R x j := fun j hxj => Nat.not_lt.2 hx.1 (h.issued x j hxj).1
  refine ⟨h.matching.withPair hxR hy hrole, ?_, ?_, ?_, ?_, fun v i hi => ?_, fun v j hj hv => ?_,
    fun i j hij => ?_⟩
  · rw [hu.settings, hu'.settings, h.settings]
  · rw [hu.nextKey, hu'.nextKey, h.nextKey]
  · rw [hu.tableau, hu'.tableau]
    exact h.tableau.extend (hs.column_eq_nil hx.1) (h.column_eq_nil hs' hy)
  · rw [hu.equations, hu'.equations]
    exact h.equations.imp (fun _ _ h => h) fun _ _ hi => ⟨hi.1, hi.2.imp hmono⟩
  · rcases hknown v i hi with hold | ⟨rfl, hnew⟩
    · obtain ⟨j, hj, hij⟩ := h.known v i hold
      exact ⟨j, hu'.symbols v j hj, Or.inl hij⟩
    · exact ⟨y, hnew, Or.inr ⟨rfl, rfl⟩⟩
  · obtain ⟨hold, hne⟩ := hunclaimed v j hj hv
    have hnone : s.symbols.get? v = none := by
      cases hi : s.symbols.get? v with
      | none =>
          rfl
      | some i =>
          rw [hu.symbols v i hi] at hv
          cases hv
    rintro i (hij | ⟨_, rfl⟩)
    · exact h.unclaimed v j hold hnone i hij
    · exact hne rfl
  · rcases hij with hij | ⟨rfl, rfl⟩
    · exact ⟨Nat.lt_of_lt_of_le (h.issued i j hij).1 hu.nextIndex,
        Nat.lt_of_lt_of_le (h.issued i j hij).2 hu'.nextIndex⟩
    · exact ⟨hx.2, hyu⟩

/-- Symbols that are handed out by both correspond. -/
theorem Mirrors.fresh
    (h : Mirrors R s s')
    (hs : s.Numbered)
    (hs' : s'.Numbered)
    (role : Role) :
    Mirrors (Symbol.withPair R (s.fresh role).1 (s'.fresh role).1) (s.fresh role).2
      (s'.fresh role).2 := by
  refine h.withPair hs hs' (extends_fresh s role) (extends_fresh s' role)
    ⟨Nat.le_refl _, Nat.lt_succ_self _⟩ (fun i hi => ?_) (Nat.lt_succ_self _) rfl
    (fun v i hi => Or.inl hi) fun v j hj _ => ⟨hj, ?_⟩
  · exact Nat.lt_irrefl _ (h.issued i _ hi).2
  · rintro rfl
    exact Nat.lt_irrefl _ (hs'.index_lt v _ hj)

/-- A variable that the first solver does not know gets a symbol that is not taken. -/
theorem Mirrors.unclaimed_symbolOf
    (h : Mirrors R s s')
    (hv : s.symbols.get? v = none) :
    ∀ i, ¬ R i (s'.symbolOf v).1 := by
  intro i hi
  cases hy : s'.symbols.get? v with
  | some y =>
      rw [symbolOf_of_get? hy] at hi
      exact h.unclaimed v y hy hv i hi
  | none =>
      rw [symbolOf_of_get?_eq_none hy] at hi
      exact Nat.lt_irrefl _ (h.issued i _ hi).2

/-- Asking for the symbol of one variable gives no other variable a symbol, let alone that one. -/
theorem Numbered.get?_symbolOf_of_ne
    {w : Variable}
    (h : s.Numbered)
    (hwv : w ≠ v)
    (hw : (s.symbolOf v).2.symbols.get? w = some y) :
    s.symbols.get? w = some y ∧ y ≠ (s.symbolOf v).1 := by
  refine ⟨?_, ?_⟩
  · rcases get?_symbolOf_eq_some hw with hold | ⟨heq, _, _⟩
    · exact hold
    · exact absurd heq hwv
  · rintro rfl
    exact hwv ((h.symbolOf v).injective w v _ hw (get?_symbolOf s v))

/-- The symbols of a variable correspond, those handed out for it included. -/
theorem Mirrors.symbolOf
    (h : Mirrors R s s')
    (hs : s.Numbered)
    (hs' : s'.Numbered)
    (v : Variable) :
    ∃ Q, (∀ i j, R i j → Q i j) ∧ Mirrors Q (s.symbolOf v).2 (s'.symbolOf v).2 ∧
      Q (s.symbolOf v).1 (s'.symbolOf v).1 := by
  cases hx : s.symbols.get? v with
  | some x =>
      obtain ⟨y, hy, hxy⟩ := h.known v x hx
      rw [symbolOf_of_get? hx, symbolOf_of_get? hy]
      exact ⟨R, fun _ _ hij => hij, h, hxy⟩
  | none =>
      refine ⟨Symbol.withPair R (s.symbolOf v).1 (s'.symbolOf v).1, fun _ _ hij => Or.inl hij, ?_,
        Or.inr ⟨rfl, rfl⟩⟩
      have hnumbered' := hs'.symbolOf v
      have hget := get?_symbolOf s v
      have hget' := get?_symbolOf s' v
      have hnew : (s.symbolOf v).1 = ⟨s.nextIndex, .free⟩ := by
        rw [symbolOf_of_get?_eq_none hx]
      have hissued : s.nextIndex ≤ (s.symbolOf v).1.index ∧
          (s.symbolOf v).1.index < (s.symbolOf v).2.nextIndex :=
        ⟨Nat.le_of_eq (congrArg Symbol.index hnew).symm, (hs.symbolOf v).index_lt v _ hget⟩
      have hrole : (s.symbolOf v).1.role = (s'.symbolOf v).1.role := by
        rw [hnew]
        exact (beq_iff_eq.1 (hnumbered'.isFree v _ hget')).symm
      refine h.withPair hs hs' (extends_symbolOf s v) (extends_symbolOf s' v) hissued
        (h.unclaimed_symbolOf hx) (hnumbered'.index_lt v _ hget') hrole (fun w i hi => ?_)
        fun w j hj hw => hs'.get?_symbolOf_of_ne ?_ hj
      · rcases get?_symbolOf_eq_some hi with hold | ⟨rfl, _, rfl⟩
        · exact Or.inl hold
        · exact Or.inr ⟨hnew.symm, hget'⟩
      · rintro rfl
        rw [hget] at hw
        cases hw

end Symbols

section Compiling

/-- Both solvers compile to corresponding rows. -/
structure MirrorsRow (R : Symbol → Symbol → Prop) (acc acc' : Row K × Solver K) : Prop where
  solver : Mirrors R acc.2 acc'.2
  row : Row.Related R acc.1 acc'.1
  numbered : acc.2.Numbered
  numbered' : acc'.2.Numbered

theorem MirrorsRow.addTerm
    {acc acc' : Row K × Solver K}
    (h : MirrorsRow R acc acc')
    (term : Term K) :
    ∃ Q, (∀ i j, R i j → Q i j) ∧ MirrorsRow Q (addTerm acc term) (addTerm acc' term) := by
  obtain ⟨Q, hmono, hsolver, hxy⟩ := h.solver.symbolOf h.numbered h.numbered' term.var
  refine ⟨Q, hmono, ?_⟩
  have hunique := hsolver.matching.unique
  have hrow := hsolver.tableau.row? hunique hxy
  have hnumbered := h.numbered.symbolOf term.var
  have hnumbered' := h.numbered'.symbolOf term.var
  rw [(extends_symbolOf acc.2 term.var).tableau, (extends_symbolOf acc'.2 term.var).tableau] at hrow
  rcases cases_of_rel hrow with ⟨hnone, hnone'⟩ | ⟨row, row', hrow, hrow', hr⟩
  · rw [addTerm_eq_of_nonbasic hnone, addTerm_eq_of_nonbasic hnone']
    exact ⟨hsolver, (h.row.imp hmono).addTerm hunique hxy _, hnumbered, hnumbered'⟩
  · rw [addTerm_eq_of_row? hrow, addTerm_eq_of_row? hrow']
    exact ⟨hsolver, (h.row.imp hmono).addRow hunique hr _, hnumbered, hnumbered'⟩

theorem MirrorsRow.foldl_addTerm
    {acc acc' : Row K × Solver K}
    (h : MirrorsRow R acc acc')
    (terms : List (Term K)) :
    ∃ Q, (∀ i j, R i j → Q i j) ∧
      MirrorsRow Q (terms.foldl Solver.addTerm acc) (terms.foldl Solver.addTerm acc') := by
  induction terms generalizing R acc acc' with
  | nil =>
      exact ⟨R, fun _ _ hij => hij, h⟩
  | cons term terms ih =>
      obtain ⟨Q, hRQ, hfirst⟩ := h.addTerm term
      obtain ⟨P, hQP, hrest⟩ := ih hfirst
      exact ⟨P, fun i j hij => hQP i j (hRQ i j hij), hrest⟩

/-- Corresponding rows and markers, known to solvers that mirror each other. -/
structure MirrorsCompiled (R : Symbol → Symbol → Prop) (c c' : Compiled K) : Prop where
  solver : Mirrors R c.solver c'.solver
  row : Row.Related R c.row c'.row
  markers : Markers.Related R c.markers c'.markers

variable {row row' : Row K}

theorem MirrorsRow.compileEqual
    (h : MirrorsRow R (row, s) (row', s'))
    (required : Bool) :
    ∃ Q, (∀ i j, R i j → Q i j) ∧
      MirrorsCompiled Q (s.compileEqual row required) (s'.compileEqual row' required) := by
  unfold Solver.compileEqual
  cases required with
  | true =>
      have hdummy := h.solver.fresh h.numbered h.numbered' .dummy
      refine ⟨_, fun _ _ hij => Or.inl hij, hdummy, ?_, .rigid (Or.inr ⟨rfl, rfl⟩)⟩
      exact (h.row.imp fun _ _ hij => Or.inl hij).addTerm hdummy.matching.unique
        (Or.inr ⟨rfl, rfl⟩) 1
  | false =>
      have hplus := h.solver.fresh h.numbered h.numbered' .slack
      have hminus := hplus.fresh (h.numbered.fresh .slack) (h.numbered'.fresh .slack) .slack
      have hunique := hminus.matching.unique
      refine ⟨_, fun _ _ hij => Or.inl (Or.inl hij), hminus, ?_,
        .elastic (Or.inl (Or.inr ⟨rfl, rfl⟩)) (Or.inr ⟨rfl, rfl⟩)⟩
      exact ((h.row.imp fun _ _ hij => Or.inl (Or.inl hij)).addTerm hunique
        (Or.inl (Or.inr ⟨rfl, rfl⟩)) (-1)).addTerm hunique (Or.inr ⟨rfl, rfl⟩) 1

theorem MirrorsRow.compileSurplus
    (h : MirrorsRow R (row, s) (row', s'))
    (required : Bool) :
    ∃ Q, (∀ i j, R i j → Q i j) ∧
      MirrorsCompiled Q (s.compileSurplus row required) (s'.compileSurplus row' required) := by
  unfold Solver.compileSurplus
  have hslack := h.solver.fresh h.numbered h.numbered' .slack
  cases required with
  | true =>
      refine ⟨_, fun _ _ hij => Or.inl hij, hslack, ?_, .bounded (Or.inr ⟨rfl, rfl⟩)⟩
      exact (h.row.imp fun _ _ hij => Or.inl hij).addTerm hslack.matching.unique
        (Or.inr ⟨rfl, rfl⟩) (-1)
  | false =>
      have herror := hslack.fresh (h.numbered.fresh .slack) (h.numbered'.fresh .slack) .slack
      have hunique := herror.matching.unique
      refine ⟨_, fun _ _ hij => Or.inl (Or.inl hij), herror, ?_,
        .yielding (Or.inl (Or.inr ⟨rfl, rfl⟩)) (Or.inr ⟨rfl, rfl⟩)⟩
      exact ((h.row.imp fun _ _ hij => Or.inl (Or.inl hij)).addTerm hunique
        (Or.inl (Or.inr ⟨rfl, rfl⟩)) (-1)).addTerm hunique (Or.inr ⟨rfl, rfl⟩) 1

theorem Mirrors.compile
    (h : Mirrors R s s')
    (hs : s.Numbered)
    (hs' : s'.Numbered)
    (e : Equation K) :
    ∃ Q, (∀ i j, R i j → Q i j) ∧ MirrorsCompiled Q (s.compile e) (s'.compile e) := by
  have hstart : MirrorsRow R (Row.ofConstant (-e.constant), s) (Row.ofConstant (-e.constant), s') :=
    ⟨h, Row.related_ofConstant _, hs, hs'⟩
  obtain ⟨P, hRP, hdifference⟩ := hstart.foldl_addTerm e.terms
  have hscaled : MirrorsRow P ((s.difference e).1.scale (-1), (s.difference e).2)
      ((s'.difference e).1.scale (-1), (s'.difference e).2) :=
    ⟨hdifference.solver, hdifference.row.scale (-1), hdifference.numbered,
      hdifference.numbered'⟩
  have hsigned : ∃ Q, (∀ i j, P i j → Q i j) ∧
      MirrorsCompiled Q (s.compileSigned e) (s'.compileSigned e) := by
    unfold compileSigned
    cases e.relation with
    | equal =>
        exact hdifference.compileEqual _
    | atLeast =>
        exact hdifference.compileSurplus _
    | atMost =>
        exact hscaled.compileSurplus _
  obtain ⟨Q, hPQ, hcompiled⟩ := hsigned
  refine ⟨Q, fun i j hij => hPQ i j (hRP i j hij), ?_⟩
  unfold Solver.compile
  dsimp only
  rw [hcompiled.row.constant]
  split
  · exact ⟨hcompiled.solver, hcompiled.row.scale (-1), hcompiled.markers⟩
  · exact hcompiled

end Compiling

section Calls

theorem Mirrors.withTableau
    (h : Mirrors R s s')
    (ht : Tableau.Related R t t') :
    Mirrors R (s.withTableau t) (s'.withTableau t') :=
  ⟨h.matching, h.settings, h.nextKey, ht, h.equations, h.known, h.unclaimed, h.issued⟩

theorem Mirrors.minimise
    (h : Mirrors R s s') :
    Mirrors R s.minimise.1 s'.minimise.1 := by
  rw [minimise_fst, minimise_fst, Solver.furtherPivots, Solver.furtherPivots, h.settings]
  exact h.withTableau (h.tableau.minimise h.matching h.matching.objective _).1

theorem Mirrors.enforce
    {ps ps' : List Pass}
    (h : Mirrors R s s')
    (hmarkers : Markers.Related R markers markers')
    (ht : Tableau.Related R t t') :
    Mirrors R (s.enforce e markers t ps).solver (s'.enforce e markers' t' ps').solver ∧
      (s.enforce e markers t ps).result = (s'.enforce e markers' t' ps').result := by
  have hkey : (⟨s.nextKey⟩ : EquationKey) = ⟨s'.nextKey⟩ := by
    rw [h.nextKey]
  rw [enforce_solver, enforce_solver]
  refine ⟨Mirrors.minimise ⟨h.matching, h.settings, congrArg (· + 1) h.nextKey,
    ht.chargeAll h.matching hmarkers _, ?_, h.known, h.unclaimed, h.issued⟩, ?_⟩
  · exact h.equations.insert biUnique_eq hkey ⟨rfl, hmarkers⟩
  · exact congrArg Except.ok hkey

/-- The first phase of a row is passed by both or by none. -/
theorem MirrorsCompiled.addArtificial
    {c c' : Compiled K}
    (h : MirrorsCompiled R c c')
    (hc : c.solver.Numbered)
    (hc' : c'.solver.Numbered)
    (e : Equation K) :
    ∃ Q, Mirrors Q (c.solver.addArtificial e c).solver (c'.solver.addArtificial e c').solver ∧
      (c.solver.addArtificial e c).result = (c'.solver.addArtificial e c').result := by
  have hartificial := h.solver.fresh hc hc' .slack
  have hprepared := hartificial.fresh (hc.fresh .slack) (hc'.fresh .slack) .objective
  have haccept := (hprepared.tableau.tryAccept hprepared.matching
    (Or.inl (Or.inr ⟨rfl, rfl⟩)) (Or.inr ⟨rfl, rfl⟩)
    (h.row.imp fun _ _ hij => Or.inl (Or.inl hij)) c.solver.furtherPivots).1
  have hattempt' : c'.attempt.1 = (c'.solver.tableau.tryAccept c'.row c'.artificial c'.goal
      c.solver.furtherPivots).1 := by
    rw [Compiled.attempt, Solver.furtherPivots, Solver.furtherPivots, h.solver.settings]
  rw [Compiled.addArtificial_eq, Compiled.addArtificial_eq]
  rcases cases_of_rel haccept with ⟨hnone, hnone'⟩ | ⟨t, t', ht, ht', hrelated⟩
  · have hattempt : c.attempt.1 = none := hnone
    rw [hattempt, hattempt'.trans hnone']
    exact ⟨_, hprepared, rfl⟩
  · have hattempt : c.attempt.1 = some t := ht
    rw [hattempt, hattempt'.trans ht']
    exact ⟨_, hprepared.enforce (h.markers.imp fun _ _ hij => Or.inl (Or.inl hij)) hrelated⟩

theorem Mirrors.add
    (h : Mirrors R s s')
    (hs : s.Numbered)
    (hs' : s'.Numbered)
    (e : Equation K) :
    ∃ Q, Mirrors Q (s.add e).solver (s'.add e).solver ∧ (s.add e).result = (s'.add e).result := by
  obtain ⟨Q, _, hcompiled⟩ := h.compile hs hs' e
  have hmatching := hcompiled.solver.matching
  have hentry := hcompiled.solver.tableau.chooseEntry hmatching hcompiled.row
  unfold Solver.add
  dsimp only
  generalize (s.compile e).solver.tableau.chooseEntry (s.compile e).row = entry,
    (s'.compile e).solver.tableau.chooseEntry (s'.compile e).row = entry' at hentry
  cases hentry with
  | solveFor hxy =>
      exact ⟨Q, hcompiled.solver.enforce hcompiled.markers
        (hcompiled.solver.tableau.install hmatching.unique hxy hcompiled.row)⟩
  | artificial =>
      exact hcompiled.addArtificial (hs.compiles e).numbered (hs'.compiles e).numbered e
  | conflict =>
      exact ⟨Q, hcompiled.solver, rfl⟩

theorem Mirrors.remove
    (h : Mirrors R s s')
    (key : EquationKey) :
    Mirrors R (s.remove key).solver (s'.remove key).solver ∧
      (s.remove key).result = (s'.remove key).result := by
  rcases cases_of_rel (h.equations.get? biUnique_eq (rfl : key = key)) with
    ⟨hnone, hnone'⟩ | ⟨i, i', hi, hi', hrelated⟩
  · rw [remove_of_get?_eq_none hnone, remove_of_get?_eq_none hnone']
    exact ⟨h, rfl⟩
  · rw [remove_of_get? hi, remove_of_get? hi']
    refine ⟨Mirrors.minimise ⟨h.matching, h.settings, h.nextKey, ?_,
      h.equations.erase biUnique_eq rfl, h.known, h.unclaimed, h.issued⟩, rfl⟩
    rw [withdraw, withdraw, hrelated.1]
    exact h.tableau.retract h.matching hrelated.2 _

/-- A variable that only the second solver knows has no row, so both report the same value. -/
theorem Mirrors.value_eq
    (h : Mirrors R s s')
    (v : Variable) :
    s.value v = s'.value v := by
  unfold Solver.value
  cases hx : s.symbols.get? v with
  | some x =>
      obtain ⟨y, hy, hxy⟩ := h.known v x hx
      rw [hy, Option.bind_some, Option.bind_some]
      rcases cases_of_rel (h.tableau.row? h.matching.unique hxy) with
        ⟨hnone, hnone'⟩ | ⟨r, r', hr, hr', hrow⟩
      · rw [hnone, hnone']
      · rw [hr, hr', Option.map_some, Option.map_some, hrow.constant]
  | none =>
      cases hy : s'.symbols.get? v with
      | none =>
          rfl
      | some y =>
          have hnone : s'.tableau.row? y = none := by
            cases hr : s'.tableau.row? y with
            | none =>
                rfl
            | some r =>
                obtain ⟨x, hxy⟩ := (h.exists_of_row? hr).1
                exact absurd hxy (h.unclaimed v y hy hx x)
          rw [Option.bind_some, hnone]
          rfl

theorem Mirrors.objectiveValue_eq
    (h : Mirrors R s s') :
    s.objectiveValue = s'.objectiveValue := by
  unfold Solver.objectiveValue
  rcases cases_of_rel (h.tableau.row? h.matching.unique h.matching.objective) with
    ⟨hnone, hnone'⟩ | ⟨r, r', hr, hr', hrow⟩
  · rw [hnone, hnone']
  · rw [hr, hr', Option.map_some, Option.map_some, hrow.constant]

/-- Solvers that mirror each other answer alike, and still do so afterwards. -/
theorem Mirrors.answer
    (h : Mirrors R s s')
    (hs : s.Numbered)
    (hs' : s'.Numbered)
    (call : Call K) :
    ∃ Q, Mirrors Q (s.answer call).2.1 (s'.answer call).2.1 ∧
      (s.answer call).1 = (s'.answer call).1 := by
  cases call with
  | add e =>
      obtain ⟨Q, hQ, hresult⟩ := h.add hs hs' e
      exact ⟨Q, hQ, congrArg Reply.added hresult⟩
  | remove key =>
      obtain ⟨hR, hresult⟩ := h.remove key
      exact ⟨R, hR, congrArg Reply.removed hresult⟩
  | solve => exact ⟨R, h.minimise, rfl⟩
  | value v => exact ⟨R, h, congrArg Reply.number (h.value_eq v)⟩
  | contains key => exact ⟨R, h, congrArg Reply.found (h.equations.contains biUnique_eq rfl)⟩
  | size => exact ⟨R, h, congrArg Reply.count h.equations.size⟩
  | objectiveValue => exact ⟨R, h, congrArg Reply.number h.objectiveValue_eq⟩

end Calls

section Refusals

/-- The reply to an addition that was refused. -/
def Reply.isRefusal : Reply K → Bool
  | .added (.error _) => true
  | _ => false

/-- The calls of a run without the additions that were refused in it. -/
def kept (s : Solver K) (calls : List (Call K)) : List (Call K) :=
  ((calls.zip (s.replies calls)).filter fun p => !p.2.isRefusal).map Prod.fst

/-- A refused addition leaves a solver that mirrors the one before it. -/
theorem Mirrors.refuse
    (h : Mirrors R s s')
    (hs' : s'.Numbered)
    (hrefused : (s'.answer (.add e)).1.isRefusal = true) :
    Mirrors R s (s'.add e).solver := by
  have hc := hs'.compiles e
  obtain ⟨u, o, ps, henters, hadd⟩ := Compiled.exists_enters s' e
  have hgrows := hc.grows.trans henters.grows
  cases o with
  | some t =>
      change (Reply.added (s'.add e).result).isRefusal = true at hrefused
      rw [hadd] at hrefused
      cases hrefused
  | none =>
      rw [hadd]
      refine ⟨h.matching, h.settings.trans hgrows.settings.symm,
        h.nextKey.trans hgrows.nextKey.symm, ?_, ?_, fun v x hx => ?_, fun v y hy hv => ?_,
        fun x y hxy => ?_⟩
      · rw [Compiled.conclude, hgrows.tableau]
        exact h.tableau
      · rw [Compiled.conclude, hgrows.equations]
        exact h.equations
      · obtain ⟨y, hy, hxy⟩ := h.known v x hx
        exact ⟨y, hgrows.symbols v y hy, hxy⟩
      · rw [Compiled.conclude, henters.symbols] at hy
        rcases get?_compile_eq_some hy with hold | ⟨_, hle, _⟩
        · exact h.unclaimed v y hold hv
        · exact fun x hxy => Nat.not_lt.2 hle (h.issued x y hxy).2
      · exact ⟨(h.issued x y hxy).1, Nat.lt_of_lt_of_le (h.issued x y hxy).2 hgrows.nextIndex⟩

theorem Mirrors.replies_eq
    {calls : List (Call K)}
    (h : Mirrors R s s')
    (hs : s.WellFormed)
    (hs' : s'.WellFormed) :
    s.replies (s'.kept calls) = (s'.replies calls).filter fun r => !r.isRefusal := by
  induction calls generalizing R s s' with
  | nil =>
      rfl
  | cons call calls ih =>
      have hreplies : s'.replies (call :: calls) =
          (s'.answer call).1 :: (s'.answer call).2.1.replies calls := rfl
      have hkept : s'.kept (call :: calls) =
          if (s'.answer call).1.isRefusal then (s'.answer call).2.1.kept calls
          else call :: (s'.answer call).2.1.kept calls := by
        rw [kept, hreplies, List.zip_cons_cons, List.filter_cons]
        cases (s'.answer call).1.isRefusal <;> rfl
      rw [hkept, hreplies, List.filter_cons]
      cases hrefusal : (s'.answer call).1.isRefusal with
      | true =>
          cases call with
          | add e => exact ih (h.refuse hs'.toNumbered hrefusal) hs (hs'.add e)
          | remove key => cases hrefusal
          | solve => cases hrefusal
          | value v => cases hrefusal
          | contains key => cases hrefusal
          | size => cases hrefusal
          | objectiveValue => cases hrefusal
      | false =>
          obtain ⟨Q, hQ, hreply⟩ := h.answer hs.toNumbered hs'.toNumbered call
          have hrest := ih hQ (hs.answer call) (hs'.answer call)
          change (s.answer call).1 :: (s.answer call).2.1.replies _ = _
          rw [hreply, hrest]
          rfl

/--
The run without the refused additions replies to all other calls as the run with them does: with
the same keys, errors, values, sizes and objectives.
-/
theorem replies_kept
    (settings : SolverSettings) (calls : List (Call K)) :
    (new settings).replies ((new settings).kept calls) =
      ((new settings).replies calls).filter fun r => !r.isRefusal :=
  (mirrors_new settings).replies_eq (wellFormed_new settings) (wellFormed_new settings)

end Refusals

end Solver
end LinearLayout
