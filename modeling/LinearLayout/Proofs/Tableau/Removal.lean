import LinearLayout.Solver.Remove
import LinearLayout.Proofs.Roles
import LinearLayout.Proofs.Tableau.Insertion

/-!
# Taking a row out of a tableau

A marker that is not basic is pivoted into one of the rows that mention it, and then its row is
deleted.  This module says which row that can be, for every arithmetic, and that the column index
stays in step.
-/

namespace LinearLayout

section Exits

variable {K : Type} [Scalar K] {t : Tableau K} {marker basic leaving : Symbol}

/-- What the row of a restricted symbol offers when its coefficient is not negative. -/
def Tableau.support? (t : Tableau K) (marker basic : Symbol) : Option (Candidate K) :=
  if basic.isRestricted then
    (t.row? basic).bind fun row =>
      let a := row.coefficient marker
      if Scalar.less a 0 then none else some ⟨row.constant / a, basic⟩
  else none

/-- The row of an unknown, which is taken when there is nothing better. -/
def Tableau.spare? (t : Tableau K) (basic : Symbol) : Option Symbol :=
  if basic.isObjective || basic.isRestricted then none
  else (t.row? basic).map fun _ => basic

namespace Exits

variable {exits : Exits K}

theorem negative_consider :
    (exits.consider t marker basic).negative =
      (t.bound? marker basic).elim exits.negative (Candidate.least exits.negative) := by
  unfold consider Tableau.bound?
  by_cases ho : basic.isObjective = true
  · have hr : basic.isRestricted = false := by
      cases hr : basic.isRestricted with
      | false => rfl
      | true => simp [Symbol.isObjective_of_isRestricted hr] at ho
    simp [ho, hr]
  · cases hrow : t.row? basic with
    | none =>
        cases hr : basic.isRestricted <;> simp [ho]
    | some row =>
        cases hr : basic.isRestricted
        · simp [ho]
        · by_cases hless : Scalar.less (row.coefficient marker) 0 = true <;> simp [ho, hless]

theorem positive_consider :
    (exits.consider t marker basic).positive =
      (t.support? marker basic).elim exits.positive (Candidate.least exits.positive) := by
  unfold consider Tableau.support?
  by_cases ho : basic.isObjective = true
  · have hr : basic.isRestricted = false := by
      cases hr : basic.isRestricted with
      | false => rfl
      | true => simp [Symbol.isObjective_of_isRestricted hr] at ho
    simp [ho, hr]
  · cases hrow : t.row? basic with
    | none =>
        cases hr : basic.isRestricted <;> simp [ho]
    | some row =>
        cases hr : basic.isRestricted
        · simp [ho]
        · by_cases hless : Scalar.less (row.coefficient marker) 0 = true <;> simp [ho, hless]

theorem free_consider :
    (exits.consider t marker basic).free = (exits.free <|> t.spare? basic) := by
  unfold consider Tableau.spare?
  by_cases ho : basic.isObjective = true
  · simp [ho]
  · cases hrow : t.row? basic with
    | none =>
        simp [ho]
    | some row =>
        cases hr : basic.isRestricted
        · simp [ho]
        · by_cases hless : Scalar.less (row.coefficient marker) 0 = true <;> simp [ho, hless]

theorem negative_foldl_consider
    (basics : List Symbol) :
    (basics.foldl (consider t marker) exits).negative =
      (basics.filterMap (t.bound? marker)).foldl Candidate.least exits.negative := by
  induction basics generalizing exits with
  | nil =>
      rfl
  | cons basic basics ih =>
      rw [List.foldl_cons, ih, negative_consider, List.filterMap_cons]
      cases t.bound? marker basic <;> rfl

theorem positive_foldl_consider
    (basics : List Symbol) :
    (basics.foldl (consider t marker) exits).positive =
      (basics.filterMap (t.support? marker)).foldl Candidate.least exits.positive := by
  induction basics generalizing exits with
  | nil =>
      rfl
  | cons basic basics ih =>
      rw [List.foldl_cons, ih, positive_consider, List.filterMap_cons]
      cases t.support? marker basic <;> rfl

theorem free_foldl_consider
    (basics : List Symbol) :
    (basics.foldl (consider t marker) exits).free =
      (exits.free <|> basics.findSome? t.spare?) := by
  induction basics generalizing exits with
  | nil =>
      simp
  | cons basic basics ih =>
      rw [List.foldl_cons, ih, free_consider, List.findSome?_cons]
      cases exits.free <;> cases t.spare? basic <;> rfl

end Exits

namespace Tableau

/-- The best candidate of a list, if it has one. -/
def bestOf (cs : List (Candidate K)) : Option (Candidate K) :=
  cs.foldl Candidate.least none

theorem mem_of_bestOf
    {cs : List (Candidate K)} {c : Candidate K}
    (h : bestOf cs = some c) :
    c ∈ cs := by
  rcases Candidate.mem_of_foldl_least h with h | h
  · cases h
  · exact h

theorem bestOf_eq_none
    {cs : List (Candidate K)}
    (h : bestOf cs = none) :
    cs = [] := by
  refine Classical.byContradiction fun hne => ?_
  have hsome : (bestOf cs).isSome = true := Candidate.foldl_least_isSome (Or.inr hne)
  rw [h] at hsome
  cases hsome

/--
A row with a negative coefficient is preferred, then one with another coefficient, then the row of
an unknown.
-/
theorem exit?_eq :
    t.exit? marker =
      ((bestOf ((t.column marker).filterMap (t.bound? marker)) <|>
          bestOf ((t.column marker).filterMap (t.support? marker))).map Candidate.symbol <|>
        (t.column marker).findSome? t.spare?) := by
  unfold exit? Exits.choice
  rw [Exits.negative_foldl_consider, Exits.positive_foldl_consider, Exits.free_foldl_consider]
  rfl

/-- Where a marker is pivoted: the three kinds of rows in their order. -/
theorem exit?_eq_some
    (h : t.exit? marker = some leaving) :
    (∃ c, bestOf ((t.column marker).filterMap (t.bound? marker)) = some c ∧
        c.symbol = leaving) ∨
      ((t.column marker).filterMap (t.bound? marker) = [] ∧
        ∃ c, bestOf ((t.column marker).filterMap (t.support? marker)) = some c ∧
          c.symbol = leaving) ∨
      ((t.column marker).filterMap (t.bound? marker) = [] ∧
        (t.column marker).filterMap (t.support? marker) = [] ∧
        leaving ∈ t.column marker ∧ leaving.isObjective = false ∧
        leaving.isRestricted = false) := by
  rw [exit?_eq] at h
  cases hneg : bestOf ((t.column marker).filterMap (t.bound? marker)) with
  | some c =>
      rw [hneg] at h
      exact Or.inl ⟨c, rfl, Option.some.inj h⟩
  | none =>
      rw [hneg] at h
      refine Or.inr ?_
      cases hpos : bestOf ((t.column marker).filterMap (t.support? marker)) with
      | some c =>
          rw [hpos] at h
          exact Or.inl ⟨bestOf_eq_none hneg, c, rfl, Option.some.inj h⟩
      | none =>
          rw [hpos] at h
          have hspare : (t.column marker).findSome? t.spare? = some leaving := h
          obtain ⟨b, hb, hbs⟩ := List.exists_of_findSome?_eq_some hspare
          unfold spare? at hbs
          split at hbs
          · cases hbs
          · next hroles =>
              obtain ⟨row, _, rfl⟩ := Option.map_eq_some_iff.1 hbs
              simp only [Bool.or_eq_true, not_or, Bool.not_eq_true] at hroles
              exact Or.inr ⟨bestOf_eq_none hneg, bestOf_eq_none hpos, hb, hroles⟩

theorem support?_eq_some
    {c : Candidate K}
    (h : t.support? marker basic = some c) :
    basic.isRestricted = true ∧ ∃ row, t.row? basic = some row ∧
      Scalar.less (row.coefficient marker) 0 = false ∧
      c = ⟨row.constant / row.coefficient marker, basic⟩ := by
  unfold support? at h
  split at h
  · next hb =>
      obtain ⟨row, hrow, hif⟩ := Option.bind_eq_some_iff.1 h
      dsimp only at hif
      split at hif
      · cases hif
      · next hless => exact ⟨hb, row, hrow, by simpa using hless, (Option.some.inj hif).symm⟩
  · cases h

/-- A restricted row that mentions the marker is a candidate of one kind or the other. -/
theorem not_isRestricted_of_filterMap_eq_nil
    {row : Row K}
    (hneg : (t.column marker).filterMap (t.bound? marker) = [])
    (hpos : (t.column marker).filterMap (t.support? marker) = [])
    (hb : basic ∈ t.column marker)
    (hrow : t.row? basic = some row) :
    basic.isRestricted = false := by
  have hbound := List.filterMap_eq_nil_iff.1 hneg basic hb
  have hsupport := List.filterMap_eq_nil_iff.1 hpos basic hb
  cases hr : basic.isRestricted with
  | false =>
      rfl
  | true =>
      simp only [bound?, support?, hr, hrow, if_true, Option.bind_some] at hbound hsupport
      cases hless : Scalar.less (row.coefficient marker) 0 <;> simp [hless] at hbound hsupport

/-- The chosen row mentions the marker and is no objective. -/
theorem mem_column_of_exit?
    (h : t.exit? marker = some leaving) :
    leaving ∈ t.column marker ∧ leaving.isObjective = false := by
  rcases exit?_eq_some h with ⟨c, hc, rfl⟩ | ⟨_, c, hc, rfl⟩ | ⟨_, _, hmem, ho, _⟩
  · obtain ⟨b, hb, hbound⟩ := List.mem_filterMap.1 (mem_of_bestOf hc)
    obtain ⟨hr, row, _, _, rfl⟩ := bound?_eq_some hbound
    exact ⟨hb, Symbol.isObjective_of_isRestricted hr⟩
  · obtain ⟨b, hb, hsupport⟩ := List.mem_filterMap.1 (mem_of_bestOf hc)
    obtain ⟨hr, row, _, _, rfl⟩ := support?_eq_some hsupport
    exact ⟨hb, Symbol.isObjective_of_isRestricted hr⟩
  · exact ⟨hmem, ho⟩

/-- No row is found only where at most objectives mention the marker. -/
theorem isObjective_of_exit?_eq_none
    {row : Row K}
    (h : t.exit? marker = none)
    (hb : basic ∈ t.column marker)
    (hrow : t.row? basic = some row) :
    basic.isObjective = true := by
  rw [exit?_eq] at h
  have hneg : bestOf ((t.column marker).filterMap (t.bound? marker)) = none := by
    cases hbest : bestOf ((t.column marker).filterMap (t.bound? marker)) with
    | none => rfl
    | some c =>
        rw [hbest] at h
        cases h
  rw [hneg] at h
  have hpos : bestOf ((t.column marker).filterMap (t.support? marker)) = none := by
    cases hbest : bestOf ((t.column marker).filterMap (t.support? marker)) with
    | none => rfl
    | some c =>
        rw [hbest] at h
        cases h
  rw [hpos] at h
  have hspare : (t.column marker).findSome? t.spare? = none := h
  have hnone := List.findSome?_eq_none_iff.1 hspare basic hb
  have hr := not_isRestricted_of_filterMap_eq_nil (bestOf_eq_none hneg) (bestOf_eq_none hpos)
    hb hrow
  cases ho : basic.isObjective with
  | true => rfl
  | false => simp [spare?, ho, hr, hrow] at hnone

end Tableau

end Exits

namespace Tableau

variable {K : Type} [Scalar K] {t t' : Tableau K} {S : Symbol → Prop} {marker : Symbol}

/-- The three ways in which the row of a marker goes. -/
theorem Consistent.deleteMarker_cases
    (h : t.Consistent)
    (marker : Symbol) :
    (∃ row, t.removeRow marker = some (row, t.deleteMarker marker)) ∨
      (∃ leaving row solved, t.exit? marker = some leaving ∧ t.row? leaving = some row ∧
        marker ∈ row.symbols ∧
        (t.pivot marker leaving).removeRow marker = some (solved, t.deleteMarker marker)) ∨
      (t.row? marker = none ∧ t.exit? marker = none ∧
        t.deleteMarker marker = t.removeColumn marker) := by
  unfold deleteMarker
  split
  · next row rest hremove => exact Or.inl ⟨row, hremove⟩
  · next hremove =>
      refine Or.inr ?_
      split
      · next leaving hexit =>
          obtain ⟨row, hrow, hmem⟩ :=
            (h.mem_column_iff marker leaving).1 (mem_column_of_exit? hexit).1
          obtain ⟨rest, hrest⟩ := removeRow_of_row?
            (show (t.pivot marker leaving).row? marker = some (row.exchange leaving marker) by
              rw [row?_pivot hrow, if_pos rfl])
          refine Or.inl ⟨leaving, row, row.exchange leaving marker, hexit, hrow, hmem, ?_⟩
          rw [deleteRow, hrest]
          rfl
      · next hexit => exact Or.inr ⟨removeRow_eq_none_iff.1 hremove, hexit, rfl⟩

theorem Consistent.deleteMarker
    (h : t.Consistent)
    (marker : Symbol) :
    (t.deleteMarker marker).Consistent := by
  rcases h.deleteMarker_cases marker with
    ⟨row, hremove⟩ | ⟨leaving, row, solved, _, hrow, hmem, hremove⟩ | ⟨_, _, hcolumn⟩
  · exact h.removeRow hremove
  · exact (h.pivot hrow hmem).removeRow hremove
  · rw [hcolumn]
    exact h.removeColumn marker

theorem Within.deleteMarker
    (h : t.Within S)
    (hconsistent : t.Consistent)
    (marker : Symbol) :
    (t.deleteMarker marker).Within S := by
  rcases hconsistent.deleteMarker_cases marker with
    ⟨row, hremove⟩ | ⟨leaving, row, solved, _, hrow, hmem, hremove⟩ | ⟨_, _, hcolumn⟩
  · exact h.removeRow hremove
  · exact (h.pivot hrow ((h _ _ hrow).2 marker hmem)).removeRow hremove
  · rw [hcolumn]
    exact h.removeColumn marker

/-- What deleting the marker and dropping errors keep, taking an equation out keeps. -/
theorem retract_induction
    {P : Tableau K → Prop} {markers : Markers} {weight : K}
    (column : ∀ t error, P t → error ∈ markers.errors → error ≠ markers.marker →
      P (t.removeColumn error))
    (h : P ((t.chargeAll markers (-weight)).deleteMarker markers.marker)) :
    P (t.retract markers weight) := by
  unfold retract
  generalize (t.chargeAll markers (-weight)).deleteMarker markers.marker = u at h
  have hmem : ∀ e ∈ markers.errors.filter (· ≠ markers.marker),
      e ∈ markers.errors ∧ e ≠ markers.marker := by
    intro e he
    simpa using he
  generalize markers.errors.filter (· ≠ markers.marker) = errors at hmem
  induction errors generalizing u with
  | nil =>
      exact h
  | cons error errors ih =>
      obtain ⟨he, hne⟩ := hmem error List.mem_cons_self
      exact ih _ (column u error h he hne) fun e he => hmem e (List.mem_cons_of_mem _ he)

theorem Consistent.chargeAll
    (h : t.Consistent)
    (markers : Markers)
    (k : K) :
    (t.chargeAll markers k).Consistent :=
  chargeAll_induction (fun _ error h _ => h.charge k error) h

theorem Within.chargeAll
    {markers : Markers}
    (h : t.Within S)
    (herrors : ∀ e ∈ markers.errors, S e)
    (k : K) :
    (t.chargeAll markers k).Within S :=
  chargeAll_induction (fun _ error h he => h.charge (herrors error he)) h

theorem Consistent.retract
    (h : t.Consistent)
    (markers : Markers)
    (weight : K) :
    (t.retract markers weight).Consistent :=
  retract_induction (fun _ error h _ _ => h.removeColumn error)
    ((h.chargeAll markers (-weight)).deleteMarker markers.marker)

theorem Within.retract
    {markers : Markers}
    (h : t.Within S)
    (hconsistent : t.Consistent)
    (herrors : ∀ e ∈ markers.errors, S e)
    (weight : K) :
    (t.retract markers weight).Within S :=
  retract_induction (fun _ error h _ _ => h.removeColumn error)
    ((h.chargeAll herrors (-weight)).deleteMarker (hconsistent.chargeAll markers (-weight))
      markers.marker)

end Tableau
end LinearLayout
