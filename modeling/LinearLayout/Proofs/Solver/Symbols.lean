import LinearLayout.Solver.Remove
import LinearLayout.Proofs.Markers
import LinearLayout.Proofs.Tableau.Insertion

/-!
# The symbols of a solver

Symbols are numbered in the order in which they are handed out, so a symbol that is handed out
now occurs nowhere yet.  Compiling an equation hands out symbols and changes nothing else.
-/

namespace LinearLayout
namespace Solver

variable {K : Type} [Scalar K] {s s' s'' : Solver K} {e : Equation K} {x : Symbol}

/-- The symbol has been handed out, and it is not the objective of a first phase. -/
def Issued (s : Solver K) (x : Symbol) : Prop :=
  x.index < s.nextIndex ∧ x.Ordinary

/-- All symbols in use have been handed out, every unknown to one variable alone. -/
structure Numbered (s : Solver K) : Prop where
  consistent : s.tableau.Consistent
  within : s.tableau.Within s.Issued
  isFree : ∀ v x, s.symbols.get? v = some x → x.isFree = true
  index_lt : ∀ v x, s.symbols.get? v = some x → x.index < s.nextIndex
  injective : ∀ v w x, s.symbols.get? v = some x → s.symbols.get? w = some x → v = w
  positive : 0 < s.nextIndex

/-- The second solver has handed out more symbols and is otherwise the first. -/
structure Extends (s s' : Solver K) : Prop where
  settings : s'.settings = s.settings
  tableau : s'.tableau = s.tableau
  equations : s'.equations = s.equations
  nextKey : s'.nextKey = s.nextKey
  nextIndex : s.nextIndex ≤ s'.nextIndex
  symbols : ∀ v x, s.symbols.get? v = some x → s'.symbols.get? v = some x

theorem Extends.refl
    (s : Solver K) :
    s.Extends s :=
  ⟨rfl, rfl, rfl, rfl, Nat.le_refl _, fun _ _ h => h⟩

theorem Extends.trans
    (h : s.Extends s')
    (h' : s'.Extends s'') :
    s.Extends s'' where
  settings := h'.settings.trans h.settings
  tableau := h'.tableau.trans h.tableau
  equations := h'.equations.trans h.equations
  nextKey := h'.nextKey.trans h.nextKey
  nextIndex := Nat.le_trans h.nextIndex h'.nextIndex
  symbols v x hv := h'.symbols v x (h.symbols v x hv)

theorem Issued.mono
    (h : s.Issued x)
    (hle : s.nextIndex ≤ s'.nextIndex) :
    s'.Issued x :=
  ⟨Nat.lt_of_lt_of_le h.1 hle, h.2⟩

/-- A number that has not been handed out belongs to a symbol that occurs nowhere. -/
theorem Numbered.fresh_of_le
    (h : s.Numbered)
    (hx : s.nextIndex ≤ x.index) :
    s.tableau.Fresh x := by
  constructor
  · cases hrow : s.tableau.row? x with
    | none =>
        rfl
    | some r =>
        have hlt := (h.within x r hrow).1.1
        omega
  · intro b r hb hmem
    have hlt := ((h.within b r hb).2 x hmem).1
    omega

section Fresh

variable {role : Role}

theorem extends_fresh
    (s : Solver K) (role : Role) :
    s.Extends (s.fresh role).2 :=
  ⟨rfl, rfl, rfl, rfl, Nat.le_succ _, fun _ _ h => h⟩

theorem Numbered.fresh
    (h : s.Numbered)
    (role : Role) :
    (s.fresh role).2.Numbered where
  consistent := h.consistent
  within b r hb := by
    have hle : s.nextIndex ≤ (s.fresh role).2.nextIndex := Nat.le_succ _
    exact ⟨(h.within b r hb).1.mono hle, fun x hx => ((h.within b r hb).2 x hx).mono hle⟩
  isFree := h.isFree
  index_lt v x hv := Nat.lt_succ_of_lt (h.index_lt v x hv)
  injective := h.injective
  positive := Nat.succ_pos _

theorem index_fresh_pair
    (s : Solver K) (first second : Role) :
    ∀ x ∈ [(s.fresh first).1, ((s.fresh first).2.fresh second).1],
      s.nextIndex ≤ x.index ∧ x.index < ((s.fresh first).2.fresh second).2.nextIndex := by
  intro x hx
  simp only [Solver.fresh, List.mem_cons, List.not_mem_nil, or_false] at hx ⊢
  rcases hx with rfl | rfl
  · dsimp only
    omega
  · dsimp only
    omega

end Fresh

section Unknowns

theorem symbolOf_of_get?
    {v : Variable}
    (h : s.symbols.get? v = some x) :
    s.symbolOf v = (x, s) := by
  simp only [symbolOf, h]

theorem symbolOf_of_get?_eq_none
    {v : Variable}
    (h : s.symbols.get? v = none) :
    s.symbolOf v = (⟨s.nextIndex, .free⟩,
      { s with
        nextIndex := s.nextIndex + 1
        symbols := s.symbols.insert v ⟨s.nextIndex, .free⟩ }) := by
  simp only [symbolOf, h, Solver.fresh]

/-- Afterwards the variable has the symbol that is returned. -/
theorem get?_symbolOf
    (s : Solver K) (v : Variable) :
    (s.symbolOf v).2.symbols.get? v = some (s.symbolOf v).1 := by
  cases h : s.symbols.get? v with
  | some x =>
      rw [symbolOf_of_get? h, h]
  | none =>
      rw [symbolOf_of_get?_eq_none h]
      simp [OrderedMap.get?_insert]

theorem extends_symbolOf
    (s : Solver K) (v : Variable) :
    s.Extends (s.symbolOf v).2 := by
  cases h : s.symbols.get? v with
  | some x =>
      rw [symbolOf_of_get? h]
      exact Extends.refl s
  | none =>
      rw [symbolOf_of_get?_eq_none h]
      refine ⟨rfl, rfl, rfl, rfl, Nat.le_succ _, fun w x hw => ?_⟩
      have hwv : w ≠ v := by
        rintro rfl
        rw [h] at hw
        cases hw
      simp [OrderedMap.get?_insert, hwv, hw]

/-- A symbol afterwards was there before, or it is the new one of the variable. -/
theorem get?_symbolOf_eq_some
    {v w : Variable}
    (h : (s.symbolOf v).2.symbols.get? w = some x) :
    s.symbols.get? w = some x ∨
      (w = v ∧ s.symbols.get? v = none ∧ x = ⟨s.nextIndex, .free⟩) := by
  cases hv : s.symbols.get? v with
  | some y =>
      rw [symbolOf_of_get? hv] at h
      exact Or.inl h
  | none =>
      rw [symbolOf_of_get?_eq_none hv, OrderedMap.get?_insert] at h
      split at h
      · next hwv => exact Or.inr ⟨hwv, rfl, (Option.some.inj h).symm⟩
      · exact Or.inl h

theorem Numbered.symbolOf
    (h : s.Numbered)
    (v : Variable) :
    (s.symbolOf v).2.Numbered := by
  have hinverse : ∀ {w x}, (s.symbolOf v).2.symbols.get? w = some x →
      s.symbols.get? w = some x ∨
        (w = v ∧ s.symbols.get? v = none ∧ x = ⟨s.nextIndex, .free⟩) := get?_symbolOf_eq_some
  cases hv : s.symbols.get? v with
  | some x =>
      rw [symbolOf_of_get? hv]
      exact h
  | none =>
      have hfresh := h.fresh .free
      rw [symbolOf_of_get?_eq_none hv] at hinverse ⊢
      refine ⟨hfresh.consistent, hfresh.within, fun w x hw => ?_, fun w x hw => ?_,
        fun w u x hw hu => ?_, hfresh.positive⟩
      · rcases hinverse hw with hw | ⟨_, _, rfl⟩
        · exact h.isFree w x hw
        · rfl
      · rcases hinverse hw with hw | ⟨_, _, rfl⟩
        · exact Nat.lt_succ_of_lt (h.index_lt w x hw)
        · exact Nat.lt_succ_self _
      · rcases hinverse hw with hw' | ⟨hwv, _, hx⟩
        · rcases hinverse hu with hu' | ⟨_, _, hx⟩
          · exact h.injective w u x hw' hu'
          · rw [hx] at hw'
            exact absurd (h.index_lt w _ hw') (Nat.lt_irrefl _)
        · rcases hinverse hu with hu' | ⟨huv, _, _⟩
          · rw [hx] at hu'
            exact absurd (h.index_lt u _ hu') (Nat.lt_irrefl _)
          · rw [hwv, huv]

end Unknowns

section Difference

/-- What is known of a partial sum: it is over nonbasic symbols. -/
structure Partial (s : Solver K) (acc : Row K × Solver K) : Prop where
  grows : s.Extends acc.2
  numbered : acc.2.Numbered
  nonbasic : s.tableau.Nonbasic acc.1

/-- The symbol is the unknown of a variable of the terms, or the row of that unknown mentions it. -/
def Stems (s : Solver K) (terms : List (Term K)) (x : Symbol) : Prop :=
  ∃ term ∈ terms, ∃ y, s.symbols.get? term.var = some y ∧
    (x = y ∨ ∃ r, s.tableau.row? y = some r ∧ x ∈ r.symbols)

theorem Stems.extend
    {terms : List (Term K)}
    (h : s.Stems terms x)
    (hgrows : s.Extends s') :
    s'.Stems terms x := by
  obtain ⟨term, hterm, y, hy, hmem⟩ := h
  refine ⟨term, hterm, y, hgrows.symbols _ y hy, ?_⟩
  rw [hgrows.tableau]
  exact hmem

/-- What stems from variables has been handed out. -/
theorem Numbered.issued_of_stems
    {terms : List (Term K)}
    (h : s.Numbered)
    (hx : s.Stems terms x) :
    s.Issued x := by
  obtain ⟨_, _, y, hy, rfl | ⟨r, hr, hx⟩⟩ := hx
  · exact ⟨h.index_lt _ x hy, Symbol.ordinary_of_isObjective
      (Symbol.isObjective_of_isFree (h.isFree _ x hy))⟩
  · exact (h.within y r hr).2 x hx

theorem addTerm_eq_of_row?
    {acc : Row K × Solver K} {term : Term K} {basic : Row K}
    (h : acc.2.tableau.row? (acc.2.symbolOf term.var).1 = some basic) :
    addTerm acc term = (acc.1.addRow basic term.coefficient, (acc.2.symbolOf term.var).2) := by
  have htableau := (extends_symbolOf acc.2 term.var).tableau
  simp only [addTerm, htableau, h]

theorem addTerm_eq_of_nonbasic
    {acc : Row K × Solver K} {term : Term K}
    (h : acc.2.tableau.row? (acc.2.symbolOf term.var).1 = none) :
    addTerm acc term =
      (acc.1.addTerm (acc.2.symbolOf term.var).1 term.coefficient,
        (acc.2.symbolOf term.var).2) := by
  have htableau := (extends_symbolOf acc.2 term.var).tableau
  simp only [addTerm, htableau, h]

theorem addTerm_snd
    (acc : Row K × Solver K) (term : Term K) :
    (addTerm acc term).2 = (acc.2.symbolOf term.var).2 := by
  cases h : acc.2.tableau.row? (acc.2.symbolOf term.var).1 with
  | none => rw [addTerm_eq_of_nonbasic h]
  | some basic => rw [addTerm_eq_of_row? h]

theorem tableau_addTerm
    (acc : Row K × Solver K) (term : Term K) :
    (addTerm acc term).2.tableau = acc.2.tableau := by
  rw [addTerm_snd]
  exact (extends_symbolOf acc.2 term.var).tableau

theorem Partial.addTerm
    {acc : Row K × Solver K}
    (h : s.Partial acc)
    (term : Term K) :
    s.Partial (addTerm acc term) := by
  have hextends := extends_symbolOf acc.2 term.var
  cases hrow : acc.2.tableau.row? (acc.2.symbolOf term.var).1 with
  | some basic =>
      rw [addTerm_eq_of_row? hrow]
      rw [h.grows.tableau] at hrow
      have hconsistent : s.tableau.Consistent := h.grows.tableau ▸ h.numbered.consistent
      refine ⟨h.grows.trans hextends, h.numbered.symbolOf _, fun x hx => ?_⟩
      rcases Row.mem_symbols_of_mem_addRow hx with hx | hx
      · exact h.nonbasic x hx
      · exact hconsistent.nonbasic hrow x hx
  | none =>
      rw [addTerm_eq_of_nonbasic hrow]
      rw [h.grows.tableau] at hrow
      refine ⟨h.grows.trans hextends, h.numbered.symbolOf _, fun x hx => ?_⟩
      rcases Row.mem_symbols_of_mem_addTerm hx with hx | rfl
      · exact h.nonbasic x hx
      · exact hrow

theorem extends_foldl_addTerm
    (terms : List (Term K)) (acc : Row K × Solver K) :
    acc.2.Extends (terms.foldl addTerm acc).2 := by
  induction terms generalizing acc with
  | nil =>
      exact Extends.refl _
  | cons term terms ih =>
      refine Extends.trans ?_ (ih (addTerm acc term))
      rw [addTerm_snd]
      exact extends_symbolOf _ _

/-- Every variable of the terms has a symbol afterwards. -/
theorem get?_foldl_addTerm
    {terms : List (Term K)} {acc : Row K × Solver K} {term : Term K}
    (h : term ∈ terms) :
    ∃ x, (terms.foldl addTerm acc).2.symbols.get? term.var = some x := by
  induction terms generalizing acc with
  | nil =>
      cases h
  | cons first terms ih =>
      rcases List.mem_cons.1 h with rfl | h
      · have hget := get?_symbolOf acc.2 term.var
        rw [← addTerm_snd] at hget
        exact ⟨_, (extends_foldl_addTerm terms (addTerm acc term)).symbols _ _ hget⟩
      · exact ih h

/-- A new symbol belongs to a variable of the terms, and it was not in use before. -/
theorem get?_foldl_addTerm_eq_some
    {terms : List (Term K)} {acc : Row K × Solver K} {v : Variable}
    (h : (terms.foldl addTerm acc).2.symbols.get? v = some x) :
    acc.2.symbols.get? v = some x ∨
      (acc.2.symbols.get? v = none ∧ acc.2.nextIndex ≤ x.index ∧
        ∃ term ∈ terms, term.var = v) := by
  induction terms generalizing acc with
  | nil =>
      exact Or.inl h
  | cons term terms ih =>
      have hextends : acc.2.Extends (addTerm acc term).2 := by
        rw [addTerm_snd]
        exact extends_symbolOf _ _
      rcases ih h with hold | ⟨hnone, hle, other, hother, hvar⟩
      · rw [addTerm_snd] at hold
        rcases get?_symbolOf_eq_some hold with hold | ⟨hv, hnone, hx⟩
        · exact Or.inl hold
        · subst hv hx
          exact Or.inr ⟨hnone, Nat.le_refl _, term, List.mem_cons_self, rfl⟩
      · have hbefore : acc.2.symbols.get? v = none := by
          cases hv : acc.2.symbols.get? v with
          | none =>
              rfl
          | some y =>
              rw [hextends.symbols v y hv] at hnone
              cases hnone
        exact Or.inr ⟨hbefore, Nat.le_trans hextends.nextIndex hle, other,
          List.mem_cons_of_mem _ hother, hvar⟩

/-- A sum mentions the unknowns of its terms, or what their rows mention. -/
theorem stems_foldl_addTerm
    {terms : List (Term K)} {acc : Row K × Solver K}
    (h : x ∈ (terms.foldl addTerm acc).1.symbols) :
    x ∈ acc.1.symbols ∨ (terms.foldl addTerm acc).2.Stems terms x := by
  induction terms generalizing acc with
  | nil =>
      exact Or.inl h
  | cons term terms ih =>
      have hextends := extends_foldl_addTerm (term :: terms) acc
      have hget : ((term :: terms).foldl addTerm acc).2.symbols.get? term.var =
          some (acc.2.symbolOf term.var).1 := by
        refine (extends_foldl_addTerm terms (addTerm acc term)).symbols _ _ ?_
        rw [addTerm_snd]
        exact get?_symbolOf acc.2 term.var
      rcases ih h with hacc | ⟨other, hother, hstems⟩
      · cases hrow : acc.2.tableau.row? (acc.2.symbolOf term.var).1 with
        | some basic =>
            rw [addTerm_eq_of_row? hrow] at hacc
            rw [← hextends.tableau] at hrow
            rcases Row.mem_symbols_of_mem_addRow hacc with hacc | hbasic
            · exact Or.inl hacc
            · exact Or.inr ⟨term, List.mem_cons_self, _, hget, Or.inr ⟨basic, hrow, hbasic⟩⟩
        | none =>
            rw [addTerm_eq_of_nonbasic hrow] at hacc
            rcases Row.mem_symbols_of_mem_addTerm hacc with hacc | hx
            · exact Or.inl hacc
            · exact Or.inr ⟨term, List.mem_cons_self, _, hget, Or.inl hx⟩
      · exact Or.inr ⟨other, List.mem_cons_of_mem _ hother, hstems⟩

theorem Numbered.difference
    (h : s.Numbered)
    (e : Equation K) :
    s.Partial (s.difference e) := by
  have hfold : ∀ (terms : List (Term K)) (acc : Row K × Solver K), s.Partial acc →
      s.Partial (terms.foldl Solver.addTerm acc) := by
    intro terms
    induction terms with
    | nil =>
        exact fun _ hacc => hacc
    | cons term terms ih =>
        exact fun acc hacc => ih _ (hacc.addTerm term)
  exact hfold e.terms _ ⟨Extends.refl s, h, by simp [Tableau.Nonbasic]⟩

theorem stems_difference
    (s : Solver K) (e : Equation K) :
    ∀ x ∈ (s.difference e).1.symbols, (s.difference e).2.Stems e.terms x :=
  fun _ hx => (stems_foldl_addTerm hx).resolve_left (by simp)

end Difference

end Solver
end LinearLayout
