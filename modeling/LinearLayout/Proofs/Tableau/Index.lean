import LinearLayout.Tableau.Minimise
import LinearLayout.Proofs.Tableau.Lookup

/-!
# The column index

A tableau is consistent if its columns are the transpose of its rows and no row mentions a basic
symbol.  Every change that a solver makes keeps a tableau consistent, whatever the arithmetic.

Along the way each change is inverted: a row found after it is traced back to a row found before
it.  Later invariants of rows are read off these inversions.
-/

namespace LinearLayout

namespace Candidate

variable {K : Type} [Scalar K]

theorem least_eq_some
    {best : Option (Candidate K)} {c d : Candidate K}
    (h : least best c = some d) :
    best = some d ∨ c = d := by
  cases best with
  | none =>
      exact Or.inr (Option.some.inj h)
  | some b =>
      rw [least] at h
      split at h
      · exact Or.inr (Option.some.inj h)
      · exact Or.inl h

/-- The best of a list of candidates is one of them. -/
theorem mem_of_foldl_least
    {cs : List (Candidate K)} {best : Option (Candidate K)} {d : Candidate K}
    (h : cs.foldl least best = some d) :
    best = some d ∨ d ∈ cs := by
  induction cs generalizing best with
  | nil =>
      exact Or.inl h
  | cons c cs ih =>
      rcases ih h with hbest | hmem
      · rcases least_eq_some hbest with hbest | rfl
        · exact Or.inl hbest
        · exact Or.inr List.mem_cons_self
      · exact Or.inr (List.mem_cons_of_mem c hmem)

theorem foldl_least_isSome
    {cs : List (Candidate K)} {best : Option (Candidate K)}
    (h : best.isSome = true ∨ cs ≠ []) :
    (cs.foldl least best).isSome = true := by
  induction cs generalizing best with
  | nil =>
      simpa using h
  | cons c cs ih =>
      refine ih (Or.inl ?_)
      cases best with
      | none => rfl
      | some b =>
          rw [least]
          split <;> rfl

end Candidate

namespace Tableau

variable {K : Type}

/-- The columns list exactly the rows that mention a symbol, and basic symbols are not mentioned. -/
structure Consistent (t : Tableau K) : Prop where
  mem_column_iff : ∀ s b, b ∈ t.column s ↔ ∃ r, t.row? b = some r ∧ s ∈ r.symbols
  row?_eq_none : ∀ b r s, t.row? b = some r → s ∈ r.symbols → t.row? s = none

/-- All symbols of a row are nonbasic. -/
def Nonbasic (t : Tableau K) (row : Row K) : Prop :=
  ∀ s ∈ row.symbols, t.row? s = none

/-- All symbols of a tableau, basic or mentioned, belong to a set. -/
def Within (S : Symbol → Prop) (t : Tableau K) : Prop :=
  ∀ b r, t.row? b = some r → S b ∧ ∀ s ∈ r.symbols, S s

variable {t t' : Tableau K} {b i s : Symbol} {row r : Row K} {S : Symbol → Prop}

theorem Consistent.nonbasic
    (h : t.Consistent)
    (hb : t.row? b = some row) :
    t.Nonbasic row :=
  fun s hs => h.row?_eq_none b row s hb hs

theorem Consistent.not_mem_of_row?
    (h : t.Consistent)
    (hs : t.row? s = some r)
    (hb : t.row? b = some row) :
    s ∉ row.symbols := by
  intro hmem
  rw [h.row?_eq_none b row s hb hmem] at hs
  exact Option.some_ne_none _ hs.symm

theorem consistent_empty :
    (∅ : Tableau K).Consistent where
  mem_column_iff s b := by
    have hcolumn : (∅ : Tableau K).column s = [] := rfl
    simp [hcolumn]
  row?_eq_none b r s hb := by
    simp at hb

section Changes

theorem row?_addRow_eq_some
    (h : (t.addRow b row).row? i = some r) :
    (i = b ∧ r = row) ∨ (i ≠ b ∧ t.row? i = some r) := by
  rw [row?_addRow] at h
  split at h
  · next hib => exact Or.inl ⟨hib, (Option.some.inj h).symm⟩
  · next hib => exact Or.inr ⟨hib, h⟩

theorem Consistent.addRow
    (h : t.Consistent)
    (hb : t.row? b = none)
    (hunmentioned : ∀ c r, t.row? c = some r → b ∉ r.symbols)
    (hself : b ∉ row.symbols)
    (hrow : t.Nonbasic row) :
    (t.addRow b row).Consistent where
  mem_column_iff s c := by
    rw [mem_column_addRow, h.mem_column_iff, row?_addRow]
    by_cases hc : c = b
    · subst hc
      simp [hb]
    · simp [hc]
  row?_eq_none c r s hc hs := by
    rw [row?_addRow]
    rcases row?_addRow_eq_some hc with ⟨_, rfl⟩ | ⟨_, hc⟩
    · have hsb : s ≠ b := fun hsb => hself (hsb ▸ hs)
      rw [if_neg hsb]
      exact hrow s hs
    · have hsb : s ≠ b := fun hsb => hunmentioned c r hc (hsb ▸ hs)
      rw [if_neg hsb]
      exact h.row?_eq_none c r s hc hs

theorem Within.addRow
    (h : t.Within S)
    (hb : S b)
    (hrow : ∀ s ∈ row.symbols, S s) :
    (t.addRow b row).Within S := by
  intro c r hc
  rcases row?_addRow_eq_some hc with ⟨rfl, rfl⟩ | ⟨_, hc⟩
  · exact ⟨hb, hrow⟩
  · exact h c r hc

theorem row?_of_removeRow_eq_some
    (hremove : t.removeRow b = some (row, t'))
    (h : t'.row? i = some r) :
    i ≠ b ∧ t.row? i = some r := by
  rw [(row?_of_removeRow hremove).2] at h
  split at h
  · simp at h
  · next hib => exact ⟨hib, h⟩

theorem Consistent.removeRow
    (h : t.Consistent)
    (hremove : t.removeRow b = some (row, t')) :
    t'.Consistent where
  mem_column_iff s c := by
    obtain ⟨hb, hrows⟩ := row?_of_removeRow hremove
    rw [mem_column_of_removeRow hremove, h.mem_column_iff, hrows]
    by_cases hc : c = b
    · subst hc
      simp [hb]
    · simp [hc]
  row?_eq_none c r s hc hs := by
    obtain ⟨_, hc⟩ := row?_of_removeRow_eq_some hremove hc
    rw [(row?_of_removeRow hremove).2]
    split
    · rfl
    · exact h.row?_eq_none c r s hc hs

theorem Within.removeRow
    (h : t.Within S)
    (hremove : t.removeRow b = some (row, t')) :
    t'.Within S :=
  fun c r hc => h c r (row?_of_removeRow_eq_some hremove hc).2

theorem row?_removeColumn_eq_some
    (h : (t.removeColumn s).row? i = some r) :
    ∃ q, t.row? i = some q ∧ r = q.without s := by
  rw [row?_removeColumn] at h
  obtain ⟨q, hq, hr⟩ := Option.map_eq_some_iff.1 h
  exact ⟨q, hq, hr.symm⟩

theorem Consistent.removeColumn
    (h : t.Consistent)
    (x : Symbol) :
    (t.removeColumn x).Consistent where
  mem_column_iff s c := by
    rw [mem_column_removeColumn, h.mem_column_iff, row?_removeColumn]
    cases t.row? c <;> simp
  row?_eq_none c r s hc hs := by
    obtain ⟨q, hq, rfl⟩ := row?_removeColumn_eq_some hc
    rw [Row.mem_symbols_without] at hs
    rw [row?_removeColumn, h.row?_eq_none c q s hq hs.2]
    rfl

theorem Within.removeColumn
    (h : t.Within S)
    (x : Symbol) :
    (t.removeColumn x).Within S := by
  intro c r hc
  obtain ⟨q, hq, rfl⟩ := row?_removeColumn_eq_some hc
  refine ⟨(h c q hq).1, fun s hs => (h c q hq).2 s ?_⟩
  exact (Row.mem_symbols_without.1 hs).2

variable [Scalar K]

/-- After a substitution the symbol is mentioned no more. -/
theorem Consistent.substitute
    {replacement : Row K}
    (h : t.Consistent)
    (hself : s ∉ replacement.symbols)
    (hrow : t.Nonbasic replacement) :
    (t.substitute s replacement).Consistent ∧
      ∀ c r, (t.substitute s replacement).row? c = some r → s ∉ r.symbols := by
  have hinverse : ∀ c r, (t.substitute s replacement).row? c = some r →
      ∃ q, t.row? c = some q ∧ r = q.substitute s replacement := by
    intro c r hc
    rw [row?_substitute] at hc
    obtain ⟨q, hq, hr⟩ := Option.map_eq_some_iff.1 hc
    exact ⟨q, hq, hr.symm⟩
  refine ⟨⟨fun i c => ?_, fun c r i hc hi => ?_⟩, fun c r hc hs => ?_⟩
  · rw [mem_column_substitute]
    split
    · rfl
    · next hcond =>
        rw [h.mem_column_iff, row?_substitute]
        cases hc : t.row? c with
        | none =>
            simp
        | some q =>
            simp only [Option.map_some, Option.some.injEq, exists_eq_left']
            by_cases hi : i ∈ replacement.symbols
            · have hs : s ∉ q.symbols := by
                intro hs
                exact hcond ⟨hi, (h.mem_column_iff s c).2 ⟨q, hc, hs⟩, by simp [hc]⟩
              rw [Row.substitute_of_not_mem hs]
              exact ⟨And.right, fun hiq => ⟨fun his => hs (his ▸ hiq), hiq⟩⟩
            · exact (Row.mem_symbols_substitute_of_not_mem hi).symm
  · obtain ⟨q, hq, rfl⟩ := hinverse c r hc
    rw [row?_substitute]
    rcases Row.mem_symbols_of_mem_substitute hi with ⟨_, hi⟩ | ⟨_, hi⟩
    · rw [h.row?_eq_none c q i hq hi]
      rfl
    · rw [hrow i hi]
      rfl
  · obtain ⟨q, hq, rfl⟩ := hinverse c r hc
    exact ((Row.mem_symbols_substitute_of_not_mem hself).1 hs).1 rfl

/-- Solving a tableau for one more symbol keeps it consistent. -/
theorem Consistent.solve
    {solved : Row K}
    (h : t.Consistent)
    (hs : t.row? s = none)
    (hself : s ∉ solved.symbols)
    (hrow : t.Nonbasic solved) :
    ((t.substitute s solved).addRow s solved).Consistent := by
  obtain ⟨hsub, hgone⟩ := h.substitute hself hrow
  refine hsub.addRow ?_ hgone hself fun i hi => ?_
  · rw [row?_substitute, hs]
    rfl
  · rw [row?_substitute, hrow i hi]
    rfl

theorem row?_pivot_eq_some
    {entering leaving : Symbol}
    (hl : t.row? leaving = some row)
    (h : (t.pivot entering leaving).row? i = some r) :
    (i = entering ∧ r = row.exchange leaving entering) ∨
      (i ≠ entering ∧ i ≠ leaving ∧
        ∃ q, t.row? i = some q ∧ r = q.substitute entering (row.exchange leaving entering)) := by
  rw [row?_pivot hl] at h
  split at h
  · next hi => exact Or.inl ⟨hi, (Option.some.inj h).symm⟩
  · next hi =>
      split at h
      · simp at h
      · next hil =>
          obtain ⟨q, hq, hr⟩ := Option.map_eq_some_iff.1 h
          exact Or.inr ⟨hi, hil, q, hq, hr.symm⟩

/-- A pivot between a row and a symbol that it mentions keeps a tableau consistent. -/
theorem Consistent.pivot
    {entering leaving : Symbol}
    (h : t.Consistent)
    (hl : t.row? leaving = some row)
    (he : entering ∈ row.symbols) :
    (t.pivot entering leaving).Consistent := by
  obtain ⟨rest, hrest⟩ := removeRow_of_row? hl
  have hrows := (row?_of_removeRow hrest).2
  have hne : entering ≠ leaving := by
    rintro rfl
    exact h.not_mem_of_row? hl hl he
  have henter : t.row? entering = none := h.nonbasic hl entering he
  simp only [Tableau.pivot, hrest]
  refine (h.removeRow hrest).solve ?_ ?_ fun i hi => ?_
  · rw [hrows, if_neg hne, henter]
  · simp [hne]
  · rw [hrows]
    split
    · rfl
    · next hil =>
        rcases Row.mem_symbols_exchange.1 hi with hi | hi
        · exact absurd hi hil
        · exact h.nonbasic hl i hi.2

theorem Within.pivot
    {entering leaving : Symbol}
    (h : t.Within S)
    (hl : t.row? leaving = some row)
    (he : S entering) :
    (t.pivot entering leaving).Within S := by
  have hsolved : ∀ s ∈ (row.exchange leaving entering).symbols, S s := by
    intro s hs
    rcases Row.mem_symbols_exchange.1 hs with rfl | hs
    · exact (h _ _ hl).1
    · exact (h _ _ hl).2 s hs.2
  intro c r hc
  rcases row?_pivot_eq_some hl hc with ⟨rfl, rfl⟩ | ⟨_, _, q, hq, rfl⟩
  · exact ⟨he, hsolved⟩
  · refine ⟨(h c q hq).1, fun s hs => ?_⟩
    rcases Row.mem_symbols_of_mem_substitute hs with hs | hs
    · exact (h c q hq).2 s hs.2
    · exact hsolved s hs.2

theorem row?_addTermTo_eq_some
    {k : K}
    (h : (t.addTermTo b s k).row? i = some r) :
    (i = b ∧ ∃ q, t.row? b = some q ∧ r = q.addTerm s k) ∨ (i ≠ b ∧ t.row? i = some r) := by
  cases hb : t.row? b with
  | none =>
      simp only [addTermTo, hb] at h
      refine Or.inr ⟨?_, h⟩
      rintro rfl
      simp [hb] at h
  | some q =>
      rw [row?_addTermTo hb] at h
      split at h
      · next hi => exact Or.inl ⟨hi, q, rfl, (Option.some.inj h).symm⟩
      · next hi => exact Or.inr ⟨hi, h⟩

theorem Consistent.addTermTo
    (h : t.Consistent)
    (hs : t.row? s = none)
    (k : K) :
    (t.addTermTo b s k).Consistent := by
  cases hb : t.row? b with
  | none =>
      simpa only [Tableau.addTermTo, hb] using h
  | some q =>
      refine ⟨fun i c => ?_, fun c r i hc hi => ?_⟩
      · rw [row?_addTermTo hb]
        simp only [Tableau.addTermTo, hb, mem_column_store, h.mem_column_iff, List.mem_singleton]
        by_cases hc : c = b
        · by_cases hi : i = s
          · simp [hc, hi]
          · simp [hc, hi, hb, Row.mem_symbols_addTerm_of_ne hi]
        · simp [hc]
      · have hnone : t.row? i = none := by
          rcases row?_addTermTo_eq_some hc with ⟨_, q, hq, rfl⟩ | ⟨_, hc⟩
          · rcases Row.mem_symbols_of_mem_addTerm hi with hi | rfl
            · exact h.nonbasic hq i hi
            · exact hs
          · exact h.nonbasic hc i hi
        have hib : i ≠ b := (ne_of_row? hb hnone).symm
        rw [row?_addTermTo hb, if_neg hib, hnone]

theorem row?_addRowTo_eq_some
    {other : Row K} {k : K}
    (h : (t.addRowTo b other k).row? i = some r) :
    (i = b ∧ ∃ q, t.row? b = some q ∧ r = q.addRow other k) ∨ (i ≠ b ∧ t.row? i = some r) := by
  cases hb : t.row? b with
  | none =>
      simp only [addRowTo, hb] at h
      refine Or.inr ⟨?_, h⟩
      rintro rfl
      simp [hb] at h
  | some q =>
      rw [row?_addRowTo hb] at h
      split at h
      · next hi => exact Or.inl ⟨hi, q, rfl, (Option.some.inj h).symm⟩
      · next hi => exact Or.inr ⟨hi, h⟩

theorem Consistent.addRowTo
    {other : Row K}
    (h : t.Consistent)
    (hother : t.Nonbasic other)
    (k : K) :
    (t.addRowTo b other k).Consistent := by
  cases hb : t.row? b with
  | none =>
      simpa only [Tableau.addRowTo, hb] using h
  | some q =>
      refine ⟨fun i c => ?_, fun c r i hc hi => ?_⟩
      · rw [row?_addRowTo hb]
        simp only [Tableau.addRowTo, hb, mem_column_store, h.mem_column_iff]
        by_cases hc : c = b
        · by_cases hi : i ∈ other.symbols
          · simp [hc, hi]
          · simp [hc, hi, hb, Row.mem_symbols_addRow_of_not_mem hi]
        · simp [hc]
      · have hnone : t.row? i = none := by
          rcases row?_addRowTo_eq_some hc with ⟨_, q, hq, rfl⟩ | ⟨_, hc⟩
          · rcases Row.mem_symbols_of_mem_addRow hi with hi | hi
            · exact h.nonbasic hq i hi
            · exact hother i hi
          · exact h.nonbasic hc i hi
        have hib : i ≠ b := (ne_of_row? hb hnone).symm
        rw [row?_addRowTo hb, if_neg hib, hnone]

end Changes

section Minimise

variable [Scalar K] {objective entering leaving : Symbol}

theorem exists_of_entering?
    (h : t.entering? objective = some entering) :
    ∃ row c, t.row? objective = some row ∧ row.cells.get? entering = some c ∧
      entering.isSlack = true ∧ Scalar.less c 0 = true := by
  obtain ⟨row, hrow, hfind⟩ := Option.bind_eq_some_iff.1 h
  obtain ⟨cell, hcell, hentering⟩ := Option.map_eq_some_iff.1 hfind
  subst hentering
  have hmem : cell ∈ row.cells.entries := List.mem_of_find?_eq_some hcell
  have hpass := List.find?_some hcell
  rw [Bool.and_eq_true] at hpass
  exact ⟨row, cell.2, hrow, OrderedMap.get?_eq_some_iff.2 hmem, hpass⟩

theorem bound?_eq_some
    {c : Candidate K}
    (h : t.bound? entering b = some c) :
    b.isRestricted = true ∧ ∃ row, t.row? b = some row ∧
      Scalar.less (row.coefficient entering) 0 = true ∧
      c = ⟨-row.constant / row.coefficient entering, b⟩ := by
  unfold bound? at h
  split at h
  · next hb =>
      obtain ⟨row, hrow, hif⟩ := Option.bind_eq_some_iff.1 h
      dsimp only at hif
      split at hif
      · next hless => exact ⟨hb, row, hrow, hless, (Option.some.inj hif).symm⟩
      · simp at hif
  · simp at h

/-- The leaving symbol is a restricted one whose row mentions the entering symbol. -/
theorem exists_of_leaving?
    (h : t.leaving? entering = some leaving) :
    leaving ∈ t.column entering ∧ leaving.isRestricted = true ∧
      ∃ row, t.row? leaving = some row ∧ Scalar.less (row.coefficient entering) 0 = true := by
  obtain ⟨c, hc, hsymbol⟩ := Option.map_eq_some_iff.1 h
  have hmem : c ∈ (t.column entering).filterMap (t.bound? entering) := by
    rcases Candidate.mem_of_foldl_least hc with hc | hc
    · simp at hc
    · exact hc
  obtain ⟨b, hb, hbound⟩ := List.mem_filterMap.1 hmem
  obtain ⟨hrestricted, row, hrow, hless, rfl⟩ := bound?_eq_some hbound
  subst hsymbol
  exact ⟨hb, hrestricted, row, hrow, hless⟩

/-- What every pivot of a minimisation keeps, the minimisation keeps. -/
theorem minimise_induction
    {P : Tableau K → Prop}
    (step : ∀ t entering leaving, P t →
      t.entering? objective = some entering →
      t.leaving? entering = some leaving →
      P (t.pivot entering leaving))
    (further : Nat)
    (h : P t) :
    P (t.minimise objective further).1 := by
  induction further generalizing t with
  | zero =>
      unfold minimise
      split
      · exact h
      · next entering he =>
          split
          · exact h
          · next leaving hl => exact step t entering leaving h he hl
  | succ n ih =>
      unfold minimise
      split
      · exact h
      · next entering he =>
          split
          · exact h
          · next leaving hl => exact ih (step t entering leaving h he hl)

/-- The rows of a pivot that a minimisation makes. -/
theorem Consistent.exists_row_of_leaving?
    (h : t.Consistent)
    (hl : t.leaving? entering = some leaving) :
    ∃ row, t.row? leaving = some row ∧ entering ∈ row.symbols := by
  obtain ⟨hcolumn, _⟩ := exists_of_leaving? hl
  exact (h.mem_column_iff entering leaving).1 hcolumn

theorem Consistent.minimise
    (h : t.Consistent)
    (o : Symbol)
    (further : Nat) :
    (t.minimise o further).1.Consistent := by
  refine minimise_induction (fun t entering leaving h _ hl => ?_) further h
  obtain ⟨row, hrow, hmem⟩ := h.exists_row_of_leaving? hl
  exact h.pivot hrow hmem

end Minimise

end Tableau
end LinearLayout
