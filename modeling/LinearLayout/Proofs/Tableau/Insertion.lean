import LinearLayout.Solver.Insert
import LinearLayout.Proofs.Roles
import LinearLayout.Proofs.Tableau.Index

/-!
# Bringing a row into a tableau

A row that has to be zero is solved for one of its symbols, or an artificial symbol stands in for
it until that symbol has been brought to zero.

This module says what holds for every arithmetic: which symbol is chosen, in which ways a row is
accepted or refused, and that the column index stays in step.
-/

namespace LinearLayout
namespace Tableau

variable {K : Type} [Scalar K] {t t' : Tableau K} {row r : Row K} {S : Symbol → Prop}
variable {i subject artificial goal error : Symbol} {further : Nat} {k : K}

/-- The symbol is neither basic nor mentioned. -/
def Fresh (t : Tableau K) (s : Symbol) : Prop :=
  t.row? s = none ∧ ∀ b r, t.row? b = some r → s ∉ r.symbols

omit [Scalar K] in
theorem Consistent.not_mem_of_isReferenced
    (h : t.Consistent)
    (hs : t.isReferenced subject = false) :
    ∀ b r, t.row? b = some r → subject ∉ r.symbols := by
  intro b r hb hmem
  have hcolumn : b ∈ t.column subject := (h.mem_column_iff subject b).2 ⟨r, hb, hmem⟩
  rw [isReferenced_eq_true.2 ⟨b, hcolumn⟩] at hs
  cases hs

omit [Scalar K] in
theorem Consistent.isReferenced_of_fresh
    (h : t.Consistent)
    (hi : t.Fresh i) :
    t.isReferenced i = false := by
  refine Bool.eq_false_iff.2 fun hreferenced => ?_
  obtain ⟨b, hb⟩ := isReferenced_eq_true.1 hreferenced
  obtain ⟨r, hr, hmem⟩ := (h.mem_column_iff i b).1 hb
  exact hi.2 b r hr hmem

omit [Scalar K] in
/-- A removed basic symbol leaves no trace. -/
theorem Consistent.fresh_of_removeRow
    (h : t.Consistent)
    (hremove : t.removeRow i = some (row, t')) :
    t'.Fresh i := by
  obtain ⟨hi, hrows⟩ := row?_of_removeRow hremove
  refine ⟨by rw [hrows, if_pos rfl], fun c r hc => ?_⟩
  exact h.not_mem_of_row? hi (row?_of_removeRow_eq_some hremove hc).2

/-- A row is solved for an unknown, for a new slack, or for a new dummy among dummies. -/
theorem chooseEntry_eq_solveFor
    (h : t.chooseEntry row = .solveFor subject) :
    subject ∈ row.symbols ∧
      (subject.isFree = true ∨
        ((∀ s ∈ row.symbols, s.isFree = false) ∧ t.isReferenced subject = false ∧
          ((subject.isSlack = true ∧
              ∃ c, row.cells.get? subject = some c ∧ Scalar.less c 0 = true) ∨
            ((∀ s ∈ row.symbols, s.isDummy = true) ∧
              Scalar.isNegligible row.constant = true)))) := by
  unfold chooseEntry at h
  split at h
  · next s hs =>
      cases h
      exact ⟨List.mem_of_find?_eq_some hs, Or.inl (List.find?_some hs)⟩
  · next hfree =>
      have hfree' : ∀ s ∈ row.symbols, s.isFree = false := by
        intro s hs
        simpa using List.find?_eq_none.1 hfree s hs
      split at h
      · next s c hs =>
          cases h
          have hmem := List.mem_of_find?_eq_some hs
          have hpass := List.find?_some hs
          simp only [Bool.and_eq_true, Bool.not_eq_true'] at hpass
          exact ⟨Row.mem_symbols_of_mem_entries hmem, Or.inr ⟨hfree', hpass.2,
            Or.inl ⟨hpass.1.1, c, OrderedMap.get?_eq_some_iff.2 hmem, hpass.1.2⟩⟩⟩
      · split at h
        · next hdummy =>
            split at h
            · next hzero =>
                split at h
                · next s hs =>
                    cases h
                    have hlast := List.mem_of_getLast? hs
                    rw [List.mem_filter, Bool.not_eq_true'] at hlast
                    exact ⟨hlast.1, Or.inr ⟨hfree', hlast.2,
                      Or.inr ⟨List.all_eq_true.1 hdummy, hzero⟩⟩⟩
                · cases h
            · cases h
        · cases h

theorem chooseEntry_eq_conflict
    (h : t.chooseEntry row = .conflict) :
    (∀ s ∈ row.symbols, s.isDummy = true) ∧ Scalar.isNegligible row.constant = false := by
  unfold chooseEntry at h
  split at h
  · cases h
  · split at h
    · cases h
    · split at h
      · next hdummy =>
          split at h
          · split at h <;> cases h
          · next hzero => exact ⟨List.all_eq_true.1 hdummy, by simpa using hzero⟩
      · cases h

theorem chooseEntry_eq_artificial
    (h : t.chooseEntry row = .artificial) :
    (∀ s ∈ row.symbols, s.isFree = false) ∧
      ((∃ s ∈ row.symbols, s.isDummy = false) ∨
        ∀ s ∈ row.symbols, t.isReferenced s = true) := by
  unfold chooseEntry at h
  split at h
  · cases h
  · next hfree =>
      refine ⟨fun s hs => by simpa using List.find?_eq_none.1 hfree s hs, ?_⟩
      split at h
      · cases h
      · split at h
        · split at h
          · split at h
            · cases h
            · next hlast =>
                rw [List.getLast?_eq_none_iff, List.filter_eq_nil_iff] at hlast
                exact Or.inr fun s hs => by simpa using hlast s hs
          · cases h
        · next hdummy =>
            rw [Bool.not_eq_true, List.all_eq_false] at hdummy
            obtain ⟨s, hs, hsd⟩ := hdummy
            exact Or.inl ⟨s, hs, by simpa using hsd⟩

theorem row?_install_eq_some
    (h : (t.install subject row).row? i = some r) :
    (i = subject ∧ r = row.solveFor subject) ∨
      (i ≠ subject ∧
        ∃ q, t.row? i = some q ∧ r = q.substitute subject (row.solveFor subject)) := by
  rw [install, row?_addRow, row?_substitute] at h
  split at h
  · next hi => exact Or.inl ⟨hi, (Option.some.inj h).symm⟩
  · next hi =>
      obtain ⟨q, hq, hr⟩ := Option.map_eq_some_iff.1 h
      exact Or.inr ⟨hi, q, hq, hr.symm⟩

theorem Consistent.install
    (h : t.Consistent)
    (hs : subject ∈ row.symbols)
    (hrow : t.Nonbasic row) :
    (t.install subject row).Consistent := by
  refine h.solve (hrow subject hs) (by simp) fun i hi => ?_
  exact hrow i (Row.mem_symbols_solveFor.1 hi).2

theorem Within.install
    (h : t.Within S)
    (hs : subject ∈ row.symbols)
    (hrow : ∀ s ∈ row.symbols, S s) :
    (t.install subject row).Within S := by
  have hsolved : ∀ s ∈ (row.solveFor subject).symbols, S s :=
    fun s hs => hrow s (Row.mem_symbols_solveFor.1 hs).2
  intro b r hb
  rcases row?_install_eq_some hb with ⟨rfl, rfl⟩ | ⟨_, q, hq, rfl⟩
  · exact ⟨hrow _ hs, hsolved⟩
  · refine ⟨(h b q hq).1, fun s hs => ?_⟩
    rcases Row.mem_symbols_of_mem_substitute hs with ⟨_, hs⟩ | ⟨_, hs⟩
    · exact (h b q hq).2 s hs
    · exact hsolved s hs

/-- A row together with the artificial symbol that stands in for it and its objective. -/
def withArtificial (t : Tableau K) (row : Row K) (artificial goal : Symbol) : Tableau K :=
  (t.addRow goal row).addRow artificial row

/-- The two symbols of a first phase are new to the tableau and to the row. -/
structure FirstPhase (t : Tableau K) (row : Row K) (artificial goal : Symbol) : Prop where
  nonbasic : t.Nonbasic row
  fresh : t.Fresh artificial
  fresh_goal : t.Fresh goal
  not_mem : artificial ∉ row.symbols
  goal_not_mem : goal ∉ row.symbols
  isSlack : artificial.isSlack = true
  isObjective_goal : goal.isObjective = true

omit [Scalar K] in
theorem FirstPhase.isObjective
    (h : t.FirstPhase row artificial goal) :
    artificial.isObjective = false :=
  Symbol.isObjective_of_isSlack h.isSlack

omit [Scalar K] in
theorem FirstPhase.ne
    (h : t.FirstPhase row artificial goal) :
    artificial ≠ goal :=
  Symbol.ne_of_isObjective h.isObjective h.isObjective_goal

omit [Scalar K] in
theorem Fresh.addRow
    (h : t.Fresh artificial)
    (hne : artificial ≠ goal)
    (hrow : artificial ∉ row.symbols) :
    (t.addRow goal row).Fresh artificial := by
  refine ⟨by rw [row?_addRow, if_neg hne, h.1], fun b r hb => ?_⟩
  rcases row?_addRow_eq_some hb with ⟨_, rfl⟩ | ⟨_, hb⟩
  · exact hrow
  · exact h.2 b r hb

omit [Scalar K] in
theorem Consistent.withArtificial
    (h : t.Consistent)
    (hphase : t.FirstPhase row artificial goal) :
    (t.withArtificial row artificial goal).Consistent := by
  have hfirst : (t.addRow goal row).Consistent :=
    h.addRow hphase.fresh_goal.1 hphase.fresh_goal.2 hphase.goal_not_mem hphase.nonbasic
  have hfresh := hphase.fresh.addRow hphase.ne hphase.not_mem
  refine hfirst.addRow hfresh.1 hfresh.2 hphase.not_mem fun s hs => ?_
  have hsg : s ≠ goal := fun hsg => hphase.goal_not_mem (hsg ▸ hs)
  rw [row?_addRow, if_neg hsg, hphase.nonbasic s hs]

theorem Within.minimise
    (h : t.Within S)
    (hconsistent : t.Consistent)
    (o : Symbol)
    (further : Nat) :
    (t.minimise o further).1.Within S := by
  refine (minimise_induction (P := fun t => t.Consistent ∧ t.Within S) ?_ further
    ⟨hconsistent, h⟩).2
  rintro t entering leaving ⟨hconsistent, h⟩ _ hl
  obtain ⟨row, hrow, hmem⟩ := hconsistent.exists_row_of_leaving? hl
  exact ⟨hconsistent.pivot hrow hmem, h.pivot hrow ((h _ _ hrow).2 _ hmem)⟩

/-- The three ways in which an artificial symbol goes. -/
theorem dropArtificial_eq_some
    (h : t.dropArtificial artificial = some t') :
    (t.row? artificial = none ∧ t' = t.removeColumn artificial) ∨
      (∃ row, row.symbols = [] ∧ t.removeRow artificial = some (row, t')) ∨
      ∃ row entering, t.row? artificial = some row ∧ entering ∈ row.symbols ∧
        entering.isSlack = true ∧
        t' = (t.pivot entering artificial).removeColumn artificial := by
  unfold dropArtificial at h
  split at h
  · next hnone => exact Or.inl ⟨hnone, (Option.some.inj h).symm⟩
  · next row hrow =>
      split at h
      · next hconstant =>
          obtain ⟨⟨q, rest⟩, hremove, hrest⟩ := Option.map_eq_some_iff.1 h
          simp only at hrest
          subst hrest
          have hq := (row?_of_removeRow hremove).1
          rw [hrow] at hq
          cases hq
          exact Or.inr (Or.inl ⟨row, Row.symbols_eq_nil_of_isConstant hconstant, hremove⟩)
      · obtain ⟨entering, hentering, ht'⟩ := Option.map_eq_some_iff.1 h
        exact Or.inr (Or.inr ⟨row, entering, hrow, List.mem_of_find?_eq_some hentering,
          List.find?_some hentering, ht'.symm⟩)

/-- An artificial symbol stays where no slack can take its row. -/
theorem dropArtificial_eq_none
    (h : t.dropArtificial artificial = none) :
    ∃ row, t.row? artificial = some row ∧ ∀ s ∈ row.symbols, s.isSlack = false := by
  unfold dropArtificial at h
  split at h
  · cases h
  · next row hrow =>
      refine ⟨row, hrow, ?_⟩
      split at h
      · obtain ⟨rest, hrest⟩ := removeRow_of_row? hrow
        rw [hrest] at h
        cases h
      · exact fun s hs => by simpa using List.find?_eq_none.1 (Option.map_eq_none_iff.1 h) s hs

theorem Consistent.dropArtificial
    (h : t.Consistent)
    (hdrop : t.dropArtificial artificial = some t') :
    t'.Consistent := by
  rcases dropArtificial_eq_some hdrop with
    ⟨_, rfl⟩ | ⟨row, _, hremove⟩ | ⟨row, entering, hrow, hmem, _, rfl⟩
  · exact h.removeColumn artificial
  · exact h.removeRow hremove
  · exact (h.pivot hrow hmem).removeColumn artificial

theorem Within.dropArtificial
    (h : t.Within S)
    (hdrop : t.dropArtificial artificial = some t') :
    t'.Within S := by
  rcases dropArtificial_eq_some hdrop with
    ⟨_, rfl⟩ | ⟨row, _, hremove⟩ | ⟨row, entering, hrow, hmem, _, rfl⟩
  · exact h.removeColumn artificial
  · exact h.removeRow hremove
  · exact (h.pivot hrow ((h _ _ hrow).2 entering hmem)).removeColumn artificial

theorem tryAccept_snd :
    (t.tryAccept row artificial goal further).2 =
      ((t.withArtificial row artificial goal).minimise goal further).2 := by
  unfold tryAccept withArtificial
  dsimp only
  split
  · rfl
  · split <;> rfl

/-- A row is accepted if its objective has reached zero and the artificial symbol can go. -/
theorem tryAccept_eq_some
    (h : (t.tryAccept row artificial goal further).1 = some t') :
    ∃ reached rest,
      ((t.withArtificial row artificial goal).minimise goal further).1.removeRow goal =
        some (reached, rest) ∧
      Scalar.isNegligible reached.constant = true ∧
      rest.dropArtificial artificial = some t' := by
  unfold tryAccept at h
  dsimp only at h
  split at h
  · cases h
  · next reached rest hremove =>
      split at h
      · next hzero => exact ⟨reached, rest, hremove, hzero, h⟩
      · cases h

theorem tryAccept_eq_none
    (h : (t.tryAccept row artificial goal further).1 = none) :
    ((t.withArtificial row artificial goal).minimise goal further).1.row? goal = none ∨
      ∃ reached rest,
        ((t.withArtificial row artificial goal).minimise goal further).1.removeRow goal =
          some (reached, rest) ∧
        (Scalar.isNegligible reached.constant = false ∨
          rest.dropArtificial artificial = none) := by
  unfold tryAccept at h
  dsimp only at h
  split at h
  · next hremove => exact Or.inl (removeRow_eq_none_iff.1 hremove)
  · next reached rest hremove =>
      refine Or.inr ⟨reached, rest, hremove, ?_⟩
      split at h
      · exact Or.inr h
      · next hzero => exact Or.inl (by simpa using hzero)

theorem Consistent.tryAccept
    (h : t.Consistent)
    (hphase : t.FirstPhase row artificial goal)
    (haccept : (t.tryAccept row artificial goal further).1 = some t') :
    t'.Consistent := by
  obtain ⟨reached, rest, hremove, _, hdrop⟩ := tryAccept_eq_some haccept
  have hminimised := (h.withArtificial hphase).minimise goal further
  exact (hminimised.removeRow hremove).dropArtificial hdrop

theorem Within.tryAccept
    (h : t.Within S)
    (hconsistent : t.Consistent)
    (hphase : t.FirstPhase row artificial goal)
    (hartificial : S artificial)
    (hsymbols : ∀ s ∈ row.symbols, S s)
    (haccept : (t.tryAccept row artificial goal further).1 = some t') :
    t'.Within S := by
  obtain ⟨reached, rest, hremove, _, hdrop⟩ := tryAccept_eq_some haccept
  have hfirst := hconsistent.withArtificial hphase
  -- Until its row is removed, the goal is one more symbol of the tableau.
  have hwithin : (t.withArtificial row artificial goal).Within fun s => S s ∨ s = goal := by
    have ht : t.Within fun s => S s ∨ s = goal :=
      fun b r hb => ⟨Or.inl (h b r hb).1, fun s hs => Or.inl ((h b r hb).2 s hs)⟩
    have hsymbols' : ∀ s ∈ row.symbols, S s ∨ s = goal := fun s hs => Or.inl (hsymbols s hs)
    exact (ht.addRow (Or.inr rfl) hsymbols').addRow (Or.inl hartificial) hsymbols'
  have hgone := (hfirst.minimise goal further).fresh_of_removeRow hremove
  have hrest := (hwithin.minimise hfirst goal further).removeRow hremove
  refine Within.dropArtificial (fun b r hb => ⟨?_, fun s hs => ?_⟩) hdrop
  · refine (hrest b r hb).1.resolve_right ?_
    rintro rfl
    rw [hgone.1] at hb
    cases hb
  · refine ((hrest b r hb).2 s hs).resolve_right ?_
    rintro rfl
    exact hgone.2 b r hb hs

theorem row?_charge_of_ne
    (hi : i ≠ .objective) :
    (t.charge k error).row? i = t.row? i := by
  unfold charge
  split
  · unfold addRowTo
    split
    · rfl
    · rw [row?_store, if_neg hi]
  · unfold addTermTo
    split
    · rfl
    · rw [row?_store, if_neg hi]

theorem Consistent.charge
    (h : t.Consistent)
    (k : K)
    (error : Symbol) :
    (t.charge k error).Consistent := by
  unfold Tableau.charge
  split
  · next row hrow => exact h.addRowTo (h.nonbasic hrow) k
  · next hnone => exact h.addTermTo hnone k

theorem Within.charge
    (h : t.Within S)
    (herror : S error) :
    (t.charge k error).Within S := by
  intro b r hb
  by_cases hbo : b = .objective
  · subst hbo
    unfold Tableau.charge at hb
    split at hb
    · next row hrow =>
        rcases row?_addRowTo_eq_some hb with ⟨_, q, hq, rfl⟩ | ⟨_, hb⟩
        · refine ⟨(h _ q hq).1, fun s hs => ?_⟩
          rcases Row.mem_symbols_of_mem_addRow hs with hs | hs
          · exact (h _ q hq).2 s hs
          · exact (h _ row hrow).2 s hs
        · exact h _ r hb
    · rcases row?_addTermTo_eq_some hb with ⟨_, q, hq, rfl⟩ | ⟨_, hb⟩
      · refine ⟨(h _ q hq).1, fun s hs => ?_⟩
        rcases Row.mem_symbols_of_mem_addTerm hs with hs | rfl
        · exact (h _ q hq).2 s hs
        · exact herror
      · exact h _ r hb
  · rw [row?_charge_of_ne hbo] at hb
    exact h b r hb

/-- What charging one error keeps, charging all errors of an equation keeps. -/
theorem chargeAll_induction
    {P : Tableau K → Prop} {markers : Markers}
    (step : ∀ t error, P t → error ∈ markers.errors → P (t.charge k error))
    (h : P t) :
    P (t.chargeAll markers k) := by
  unfold chargeAll
  generalize markers.errors = errors at step
  induction errors generalizing t with
  | nil =>
      exact h
  | cons error errors ih =>
      refine ih ?_ fun t e ht he => step t e ht (List.mem_cons_of_mem _ he)
      exact step t error h List.mem_cons_self

end Tableau
end LinearLayout
