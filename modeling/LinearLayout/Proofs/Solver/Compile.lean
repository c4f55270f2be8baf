import LinearLayout.Solver.Insert
import LinearLayout.Proofs.Solver.Symbols

/-!
# Compiled equations

A compiled row is over nonbasic symbols: those of variables, those that rows already mention, and
the new ones that the equation brings along.  A row that has been compiled enters the tableau in
one of three ways, and adding an equation is nothing but compiling it and letting its row enter.
-/

namespace LinearLayout

variable {K : Type} [Scalar K]

namespace Solver

variable {s s₁ s₂ : Solver K} {e : Equation K} {markers : Markers} {row row' : Row K}

/-- What compiling an equation brings about. -/
structure Compiles (s : Solver K) (e : Equation K) (c : Compiled K) : Prop where
  grows : s.Extends c.solver
  numbered : c.solver.Numbered
  nonbasic : s.tableau.Nonbasic c.row
  origin : ∀ x ∈ c.row.symbols, c.solver.Stems e.terms x ∨ x ∈ c.markers.symbols
  known : ∀ term ∈ e.terms, ∃ x, c.solver.symbols.get? term.var = some x
  fits : c.markers.Fits e
  nodup : c.markers.symbols.Nodup
  new : ∀ x ∈ c.markers.symbols, s.nextIndex ≤ x.index ∧ x.index < c.solver.nextIndex

/-- A difference that is completed with new symbols only is a compiled row. -/
theorem Partial.compiles
    (h : s.Partial (row, s₁))
    (hs : s.Numbered)
    (hstems : ∀ x ∈ row.symbols, s₁.Stems e.terms x)
    (hknown : ∀ term ∈ e.terms, ∃ x, s₁.symbols.get? term.var = some x)
    (hgrows : s₁.Extends s₂)
    (hnumbered : s₂.Numbered)
    (hfits : markers.Fits e)
    (hnodup : markers.symbols.Nodup)
    (hnew : ∀ x ∈ markers.symbols, s₁.nextIndex ≤ x.index ∧ x.index < s₂.nextIndex)
    (hrow : ∀ x ∈ row'.symbols, x ∈ row.symbols ∨ x ∈ markers.symbols) :
    s.Compiles e ⟨row', markers, s₂⟩ := by
  have hle : ∀ x ∈ markers.symbols, s.nextIndex ≤ x.index :=
    fun x hx => Nat.le_trans h.grows.nextIndex (hnew x hx).1
  refine ⟨h.grows.trans hgrows, hnumbered, fun x hx => ?_, fun x hx => ?_, fun term hterm => ?_,
    hfits, hnodup, fun x hx => ⟨hle x hx, (hnew x hx).2⟩⟩
  · rcases hrow x hx with hx | hx
    · exact h.nonbasic x hx
    · exact (hs.fresh_of_le (hle x hx)).1
  · exact (hrow x hx).imp_left fun hx => (hstems x hx).extend hgrows
  · obtain ⟨x, hx⟩ := hknown term hterm
    exact ⟨x, hgrows.symbols _ x hx⟩

section Completion

variable
  (h : s.Partial (row, s₁))
  (hs : s.Numbered)
  (hstems : ∀ x ∈ row.symbols, s₁.Stems e.terms x)
  (hknown : ∀ term ∈ e.terms, ∃ x, s₁.symbols.get? term.var = some x)

include h hs hstems hknown

theorem Partial.compileEqual
    (hrelation : e.relation = .equal) :
    s.Compiles e (s₁.compileEqual row e.strength.isRequired) := by
  unfold Solver.compileEqual
  split
  · next hrequired =>
      refine h.compiles hs hstems hknown (extends_fresh s₁ .dummy) (h.numbered.fresh .dummy)
        ⟨rfl, hrelation, hrequired⟩ (by simp [Markers.symbols]) ?_
        fun x hx => Row.mem_symbols_addTerm_cases hx
      simp [Markers.symbols]
  · next hrequired =>
      refine h.compiles hs hstems hknown ((extends_fresh s₁ .slack).trans (extends_fresh _ .slack))
        ((h.numbered.fresh .slack).fresh .slack)
        ⟨⟨rfl, rfl⟩, hrelation, by simpa using hrequired⟩ ?_ (index_fresh_pair s₁ .slack .slack)
        fun x hx => Row.mem_symbols_addTerm_addTerm_cases hx
      simp [Markers.symbols]

theorem Partial.compileSurplus
    (hrow : row'.symbols = row.symbols)
    (hrelation : e.relation ≠ .equal) :
    s.Compiles e (s₁.compileSurplus row' e.strength.isRequired) := by
  unfold Solver.compileSurplus
  dsimp only
  split
  · next hrequired =>
      refine h.compiles hs hstems hknown (extends_fresh s₁ .slack) (h.numbered.fresh .slack)
        ⟨rfl, hrelation, hrequired⟩ (by simp [Markers.symbols]) ?_
        fun x hx => hrow ▸ Row.mem_symbols_addTerm_cases hx
      simp [Markers.symbols, Solver.fresh]
  · next hrequired =>
      refine h.compiles hs hstems hknown ((extends_fresh s₁ .slack).trans (extends_fresh _ .slack))
        ((h.numbered.fresh .slack).fresh .slack)
        ⟨⟨rfl, rfl⟩, hrelation, by simpa using hrequired⟩ ?_ (index_fresh_pair s₁ .slack .slack)
        fun x hx => hrow ▸ Row.mem_symbols_addTerm_addTerm_cases hx
      simp [Markers.symbols, Solver.fresh]

end Completion

theorem Numbered.compiles
    (h : s.Numbered)
    (e : Equation K) :
    s.Compiles e (s.compile e) := by
  have hpartial : s.Partial ((s.difference e).1, (s.difference e).2) := h.difference e
  have hknown : ∀ term ∈ e.terms, ∃ x, (s.difference e).2.symbols.get? term.var = some x :=
    fun _ hterm => get?_foldl_addTerm hterm
  have hsigned : s.Compiles e (s.compileSigned e) := by
    unfold compileSigned
    cases hrelation : e.relation with
    | equal =>
        exact hpartial.compileEqual h (stems_difference s e) hknown hrelation
    | atLeast =>
        exact hpartial.compileSurplus h (stems_difference s e) hknown rfl (by simp [hrelation])
    | atMost =>
        exact hpartial.compileSurplus h (stems_difference s e) hknown (Row.symbols_scale _ _) (by simp [hrelation])
  unfold compile
  dsimp only
  split
  · refine ⟨hsigned.grows, hsigned.numbered, fun x hx => ?_, fun x hx => ?_, hsigned.known,
      hsigned.fits, hsigned.nodup, hsigned.new⟩
    · rw [Row.symbols_scale] at hx
      exact hsigned.nonbasic x hx
    · rw [Row.symbols_scale] at hx
      exact hsigned.origin x hx
  · exact hsigned

/-- The symbols that complete a difference belong to no variable. -/
theorem compile_symbols
    (s : Solver K) (e : Equation K) :
    (s.compile e).solver.symbols = (s.difference e).2.symbols := by
  have hsigned : (s.compileSigned e).solver.symbols = (s.difference e).2.symbols := by
    unfold compileSigned compileEqual compileSurplus
    cases e.relation <;> cases e.strength.isRequired <;> rfl
  unfold compile
  dsimp only
  split
  · exact hsigned
  · exact hsigned

/-- A new symbol belongs to a variable of the equation, and it was not in use before. -/
theorem get?_compile_eq_some
    {v : Variable} {x : Symbol}
    (h : (s.compile e).solver.symbols.get? v = some x) :
    s.symbols.get? v = some x ∨
      (s.symbols.get? v = none ∧ s.nextIndex ≤ x.index ∧ ∃ term ∈ e.terms, term.var = v) := by
  rw [compile_symbols] at h
  exact get?_foldl_addTerm_eq_some h

section Patched

variable {t : Tableau K} {E : OrderedMap EquationKey (InstalledEquation K)} {m : Nat}

/-- The same symbols over another tableau, with other installed equations and another next key. -/
def patch (s : Solver K) (t : Tableau K) (E : OrderedMap EquationKey (InstalledEquation K))
    (m : Nat) : Solver K :=
  { s with
    tableau := t
    equations := E
    nextKey := m }

theorem symbolOf_patch
    (s : Solver K) (v : Variable) :
    (s.patch t E m).symbolOf v = ((s.symbolOf v).1, (s.symbolOf v).2.patch t E m) := by
  cases h : s.symbols.get? v with
  | some x =>
      have h' : (s.patch t E m).symbols.get? v = some x := h
      rw [symbolOf_of_get? h, symbolOf_of_get? h']
  | none =>
      have h' : (s.patch t E m).symbols.get? v = none := h
      rw [symbolOf_of_get?_eq_none h, symbolOf_of_get?_eq_none h']
      rfl

theorem addTerm_patch
    (h : t.rows = s.tableau.rows)
    (row : Row K) (term : Term K) :
    addTerm (row, s.patch t E m) term =
      ((addTerm (row, s) term).1, (addTerm (row, s) term).2.patch t E m) := by
  have hrow : ∀ x, ((s.symbolOf term.var).2.patch t E m).tableau.row? x =
      (s.symbolOf term.var).2.tableau.row? x := by
    intro x
    rw [(extends_symbolOf s term.var).tableau, Tableau.row?, Tableau.row?, ← h]
    rfl
  unfold addTerm
  rw [symbolOf_patch]
  dsimp only
  rw [hrow]
  split <;> rfl

theorem foldl_addTerm_patch
    (h : t.rows = s.tableau.rows)
    (row : Row K) (terms : List (Term K)) :
    terms.foldl addTerm (row, s.patch t E m) =
      ((terms.foldl addTerm (row, s)).1, (terms.foldl addTerm (row, s)).2.patch t E m) := by
  induction terms generalizing row s with
  | nil =>
      rfl
  | cons term terms ih =>
      have hrows := h.trans (congrArg Tableau.rows (tableau_addTerm (row, s) term).symm)
      rw [List.foldl_cons, List.foldl_cons, addTerm_patch h, ih hrows]

/-- Compiling looks at rows and at symbols alone. -/
theorem compile_patch
    (h : t.rows = s.tableau.rows)
    (e : Equation K) :
    (s.patch t E m).compile e =
      { s.compile e with solver := (s.compile e).solver.patch t E m } := by
  have hdifference : (s.patch t E m).difference e =
      ((s.difference e).1, (s.difference e).2.patch t E m) :=
    foldl_addTerm_patch h _ _
  have hsigned : (s.patch t E m).compileSigned e =
      { s.compileSigned e with solver := (s.compileSigned e).solver.patch t E m } := by
    unfold compileSigned compileEqual compileSurplus
    rw [hdifference]
    cases e.relation <;> cases e.strength.isRequired <;> rfl
  unfold compile
  rw [hsigned]
  dsimp only
  split <;> rfl

end Patched

theorem Compiles.issued_marker
    {c : Compiled K}
    (h : s.Compiles e c)
    (hgrows : c.solver.Extends s') :
    ∀ x ∈ c.markers.symbols, s'.Issued x :=
  fun x hx => ⟨Nat.lt_of_lt_of_le (h.new x hx).2 hgrows.nextIndex, h.fits.1.ordinary hx⟩

theorem Compiles.issued
    {c : Compiled K}
    (h : s.Compiles e c) :
    ∀ x ∈ c.row.symbols, c.solver.Issued x := by
  intro x hx
  rcases h.origin x hx with hstems | hx
  · exact h.numbered.issued_of_stems hstems
  · exact h.issued_marker (Extends.refl _) x hx

end Solver

namespace Compiled

variable {s s' : Solver K} {e : Equation K} {c : Compiled K} {o : Option (Tableau K)}
variable {ps : List Pass} {t : Tableau K}

/-- The symbol that stands in for the row of a first phase. -/
def artificial (c : Compiled K) : Symbol :=
  ⟨c.solver.nextIndex, .slack⟩

/-- The objective of a first phase. -/
def goal (c : Compiled K) : Symbol :=
  ⟨c.solver.nextIndex + 1, .objective⟩

/-- The solver that has handed out both symbols of a first phase. -/
def prepared (c : Compiled K) : Solver K :=
  ((c.solver.fresh .slack).2.fresh .objective).2

/-- The first phase of a compiled row. -/
def attempt (c : Compiled K) : Option (Tableau K) × Ending :=
  c.solver.tableau.tryAccept c.row c.artificial c.goal c.solver.furtherPivots

/-- How a compiled row enters: the solver, the tableau if the row is accepted, and the passes. -/
inductive Enters (c : Compiled K) : Solver K → Option (Tableau K) → List Pass → Prop where
  | solved {subject : Symbol} :
      c.solver.tableau.chooseEntry c.row = .solveFor subject →
      Enters c c.solver (some (c.solver.tableau.install subject c.row)) []
  | refused :
      c.solver.tableau.chooseEntry c.row = .conflict →
      Enters c c.solver none []
  | tried :
      c.solver.tableau.chooseEntry c.row = .artificial →
      Enters c c.prepared c.attempt.1 [⟨.feasibility, c.attempt.2⟩]

/-- The outcome of an addition, once it is known how its row enters. -/
def conclude (c : Compiled K) (e : Equation K) (s : Solver K) (o : Option (Tableau K))
    (ps : List Pass) : Outcome K EquationKey :=
  match o with
  | none => ⟨.error .unsatisfiable, s, ps⟩
  | some t => s.enforce e c.markers t ps

theorem addArtificial_eq
    (c : Compiled K) (e : Equation K) :
    c.solver.addArtificial e c =
      c.conclude e c.prepared c.attempt.1 [⟨.feasibility, c.attempt.2⟩] := by
  change (match c.attempt.1 with
    | none => (⟨.error .unsatisfiable, c.prepared, [⟨.feasibility, c.attempt.2⟩]⟩ :
        Outcome K EquationKey)
    | some tableau => c.prepared.enforce e c.markers tableau
        [⟨.feasibility, c.attempt.2⟩]) = _
  cases c.attempt.1 <;> rfl

theorem exists_enters
    (s : Solver K) (e : Equation K) :
    ∃ s' o ps, (s.compile e).Enters s' o ps ∧ s.add e = (s.compile e).conclude e s' o ps := by
  unfold Solver.add
  dsimp only
  split
  · next subject hchoice => exact ⟨_, _, _, Enters.solved hchoice, rfl⟩
  · next hchoice => exact ⟨_, _, _, Enters.tried hchoice, addArtificial_eq _ e⟩
  · next hchoice => exact ⟨_, _, _, Enters.refused hchoice, rfl⟩

theorem Enters.grows
    (h : c.Enters s' o ps) :
    c.solver.Extends s' := by
  cases h with
  | solved _ => exact Solver.Extends.refl _
  | refused _ => exact Solver.Extends.refl _
  | tried _ => exact (Solver.extends_fresh _ .slack).trans (Solver.extends_fresh _ .objective)

theorem Enters.numbered
    (h : c.Enters s' o ps)
    (hc : c.solver.Numbered) :
    s'.Numbered := by
  cases h with
  | solved _ => exact hc
  | refused _ => exact hc
  | tried _ => exact (hc.fresh .slack).fresh .objective

theorem Enters.symbols
    (h : c.Enters s' o ps) :
    s'.symbols = c.solver.symbols := by
  cases h <;> rfl

/-- The symbols of a first phase are new. -/
theorem firstPhase
    (hc : s.Compiles e c) :
    c.solver.tableau.FirstPhase c.row c.artificial c.goal where
  nonbasic := by
    rw [hc.grows.tableau]
    exact hc.nonbasic
  fresh := hc.numbered.fresh_of_le (Nat.le_refl _)
  fresh_goal := hc.numbered.fresh_of_le (Nat.le_succ _)
  not_mem hx := Nat.lt_irrefl _ (hc.issued _ hx).1
  goal_not_mem hx := Nat.not_succ_lt_self (hc.issued _ hx).1
  isSlack := rfl
  isObjective_goal := rfl

/-- A tableau that has accepted a row is consistent and mentions no symbol of a first phase. -/
theorem Enters.consistent
    (h : c.Enters s' (some t) ps)
    (hc : s.Compiles e c) :
    t.Consistent ∧ t.Within s'.Issued := by
  have hissued := hc.issued
  have hconsistent : c.solver.tableau.Consistent := hc.numbered.consistent
  have hnonbasic : c.solver.tableau.Nonbasic c.row := by
    rw [hc.grows.tableau]
    exact hc.nonbasic
  generalize ho : some t = o at h
  cases h with
  | @solved subject hchoice =>
      cases ho
      have hmem := (Tableau.chooseEntry_eq_solveFor hchoice).1
      exact ⟨hconsistent.install hmem hnonbasic, hc.numbered.within.install hmem hissued⟩
  | refused _ =>
      cases ho
  | tried _ =>
      have hphase := firstPhase hc
      have hle : c.solver.nextIndex ≤ c.prepared.nextIndex := by
        change c.solver.nextIndex ≤ c.solver.nextIndex + 1 + 1
        omega
      have hwithin : c.solver.tableau.Within c.prepared.Issued := fun b r hb =>
        ⟨(hc.numbered.within b r hb).1.mono hle,
          fun x hx => ((hc.numbered.within b r hb).2 x hx).mono hle⟩
      have hartificial : c.prepared.Issued c.artificial := by
        refine ⟨?_, Symbol.ordinary_of_isObjective rfl⟩
        change c.solver.nextIndex < c.solver.nextIndex + 1 + 1
        omega
      exact ⟨hconsistent.tryAccept hphase ho.symm,
        hwithin.tryAccept hconsistent hphase hartificial (fun x hx => (hissued x hx).mono hle)
          ho.symm⟩

end Compiled
end LinearLayout
