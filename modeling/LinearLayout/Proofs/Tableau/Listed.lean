import LinearLayout.Proofs.Tableau.Lockstep
import LinearLayout.Proofs.Tableau.Reports

/-!
# Solving with an index kept by reports

Everything that a solver does to a tableau can be done with the index kept by reports alone:
entering a row, minimising, charging errors and taking an equation out.  What is read from a
tableau depends on its rows and on the contents of its columns, so the choices are the same, and
in the end the rows and the columns are the same too.
-/

namespace LinearLayout

variable {K : Type} [Scalar K]

namespace Tableau

section Listed

/-- Solves a row for a symbol and puts it in the rows that the column of the symbol lists. -/
def installListed (t : Tableau K) (subject : Symbol) (row : Row K) : Tableau K :=
  let solved := row.solveFor subject
  (t.substituteListed subject solved).addRowListing subject solved

/-- Minimises an objective row, keeping the index by reports. -/
def minimiseListed (objective : Symbol) (further : Nat) (t : Tableau K) : Tableau K × Ending :=
  match t.entering? objective with
  | none => (t, .optimal)
  | some entering =>
    match t.leaving? entering with
    | none => (t, .unbounded)
    | some leaving =>
      match further with
      | 0 => (t.pivotListed entering leaving, .pivotLimit)
      | n + 1 => minimiseListed objective n (t.pivotListed entering leaving)

/-- Removes an artificial symbol that has reached zero, keeping the index by reports. -/
def dropArtificialListed (t : Tableau K) (artificial : Symbol) : Option (Tableau K) :=
  match t.row? artificial with
  | none => some (t.removeListed artificial)
  | some row =>
    if row.isConstant then (t.removeRow artificial).map Prod.snd
    else
      (row.symbols.find? Symbol.isSlack).map fun entering =>
        (t.pivotListed entering artificial).removeListed artificial

/-- Minimises an artificial symbol that stands in for a row, keeping the index by reports. -/
def tryAcceptListed (t : Tableau K) (row : Row K) (artificial goal : Symbol) (further : Nat) :
    Option (Tableau K) × Ending :=
  let (t, ending) :=
    ((t.addRowListing goal row).addRowListing artificial row).minimiseListed goal further
  match t.removeRow goal with
  | none => (none, ending)
  | some (reached, t) =>
    if Scalar.isNegligible reached.constant then (t.dropArtificialListed artificial, ending)
    else (none, ending)

/-- Adds a multiple of a symbol, or of its row, to the objective and notes the reports. -/
def chargeListed (k : K) (t : Tableau K) (error : Symbol) : Tableau K :=
  match t.row? error with
  | some row => t.edit .objective fun acc => Row.addRowNoting .objective acc row k
  | none => t.edit .objective fun acc => Row.addTermNoting .objective acc (error, k)

/-- Adds a multiple of every error of an equation to the objective and notes the reports. -/
def chargeAllListed (t : Tableau K) (markers : Markers) (k : K) : Tableau K :=
  markers.errors.foldl (chargeListed k) t

/-- Deletes the row of a marker, keeping the index by reports. -/
def deleteMarkerListed (t : Tableau K) (marker : Symbol) : Tableau K :=
  match t.removeRow marker with
  | some (_, t) => t
  | none =>
    match t.exit? marker with
    | some leaving => (t.pivotListed marker leaving).deleteRow marker
    | none => t.removeListed marker

/-- Takes an equation out of the tableau, keeping the index by reports. -/
def retractListed (t : Tableau K) (markers : Markers) (weight : K) : Tableau K :=
  let t := (t.chargeAllListed markers (-weight)).deleteMarkerListed markers.marker
  (markers.errors.filter (· ≠ markers.marker)).foldl removeListed t

end Listed

variable {t t' u : Tableau K} {row : Row K} {markers : Markers} {artificial goal : Symbol}
variable {k : K} {further : Nat}

section Same

omit [Scalar K]

/-- Being the same is being related by equality, so every operation takes the same to the same. -/
theorem related_eq_iff :
    Related Eq t u ↔ t.Same u := by
  have hrow : (Row.Related Eq : Row K → Row K → Prop) = Eq :=
    funext fun _ => funext fun _ => propext Row.related_eq_iff
  constructor
  · rintro ⟨hrows, hcolumns⟩
    rw [hrow] at hrows
    refine ⟨OrderedMap.related_eq_iff.1 hrows, fun i => ?_⟩
    have hcolumn := hcolumns i i rfl
    rw [List.forall₂_eq_eq_eq] at hcolumn
    exact OrderedSet.ext hcolumn
  · rintro ⟨hrows, hcolumns⟩
    refine ⟨hrow ▸ OrderedMap.related_eq_iff.2 hrows, ?_⟩
    rintro i _ rfl
    rw [hcolumns i, List.forall₂_eq_eq_eq]

theorem Same.trans
    (h : t.Same t')
    (h' : t'.Same u) :
    t.Same u :=
  ⟨h.1.trans h'.1, fun i => (h.2 i).trans (h'.2 i)⟩

theorem Same.row?_eq
    (h : t.Same u)
    (i : Symbol) :
    t.row? i = u.row? i := by
  rw [row?, row?, h.1]

theorem Same.column_eq
    (h : t.Same u)
    (i : Symbol) :
    t.column i = u.column i := by
  rw [column, column, h.2 i]

theorem Same.consistent
    (h : t.Same u)
    (hu : u.Consistent) :
    t.Consistent where
  mem_column_iff i b := by
    rw [h.column_eq, h.row?_eq]
    exact hu.mem_column_iff i b
  row?_eq_none b r i hb hi := by
    rw [h.row?_eq] at hb ⊢
    exact hu.row?_eq_none b r i hb hi

/-- A row is taken out of both tableaux or of none. -/
theorem Same.removeRow
    (h : t.Same u)
    (b : Symbol) :
    (t.removeRow b = none ∧ u.removeRow b = none) ∨
      ∃ r v w, t.removeRow b = some (r, v) ∧ u.removeRow b = some (r, w) ∧ v.Same w := by
  rcases (related_eq_iff.2 h).removeRow biUnique_eq (rfl : b = b) with
    hnone | ⟨r, r', v, w, hv, hw, hr, hrest⟩
  · exact Or.inl hnone
  · cases Row.related_eq_iff.1 hr
    exact Or.inr ⟨r, v, w, hv, hw, related_eq_iff.1 hrest⟩

end Same

section Choices

theorem Same.entering?_eq
    (h : t.Same u)
    (o : Symbol) :
    t.entering? o = u.entering? o := by
  simp only [entering?, h.row?_eq]

theorem Same.leaving?_eq
    (h : t.Same u)
    (e : Symbol) :
    t.leaving? e = u.leaving? e := by
  have hbound : t.bound? e = u.bound? e :=
    funext fun b => by simp only [bound?, h.row?_eq]
  rw [leaving?, leaving?, h.column_eq, hbound]

theorem Same.chooseEntry_eq
    (h : t.Same u)
    (row : Row K) :
    t.chooseEntry row = u.chooseEntry row := by
  simp only [chooseEntry, isReferenced, h.column_eq]

theorem Same.exit?_eq
    (h : t.Same u)
    (marker : Symbol) :
    t.exit? marker = u.exit? marker := by
  have hconsider : Exits.consider t marker = Exits.consider u marker :=
    funext fun exits => funext fun b => by simp only [Exits.consider, h.row?_eq]
  rw [exit?, exit?, h.column_eq, hconsider]

end Choices

section Steps

variable (h : t.Same u) (hu : u.Consistent)

include h hu

theorem Same.substituteListed
    (s : Symbol) (replacement : Row K) :
    (t.substituteListed s replacement).Same (u.substitute s replacement) := by
  have hrelated := related_eq_iff.2 h
  exact ((h.consistent hu).substituteListed s replacement).trans
    (related_eq_iff.1 (hrelated.substitute biUnique_eq rfl (Row.related_eq_iff.2 rfl)))

theorem Same.pivotListed
    (entering leaving : Symbol) :
    (t.pivotListed entering leaving).Same (u.pivot entering leaving) := by
  have hrelated := related_eq_iff.2 h
  exact ((h.consistent hu).pivotListed entering leaving).trans
    (related_eq_iff.1 (hrelated.pivot biUnique_eq rfl rfl))

omit [Scalar K] in
theorem Same.removeListed
    (s : Symbol) :
    (t.removeListed s).Same (u.removeColumn s) := by
  rw [(h.consistent hu).removeListed]
  exact related_eq_iff.1 ((related_eq_iff.2 h).removeColumn biUnique_eq rfl)

theorem Same.installListed
    (subject : Symbol) (row : Row K) :
    (t.installListed subject row).Same (u.install subject row) := by
  unfold Tableau.installListed Tableau.install
  rw [addRowListing_eq]
  exact (h.substituteListed hu subject _).addRow subject _

theorem Same.minimiseListed
    (o : Symbol) (further : Nat) :
    (t.minimiseListed o further).1.Same (u.minimise o further).1 ∧
      (t.minimiseListed o further).2 = (u.minimise o further).2 := by
  induction further generalizing t u with
  | zero =>
      unfold Tableau.minimiseListed Tableau.minimise
      rw [h.entering?_eq]
      cases u.entering? o with
      | none => exact ⟨h, rfl⟩
      | some e =>
          dsimp only
          rw [h.leaving?_eq]
          cases u.leaving? e with
          | none => exact ⟨h, rfl⟩
          | some l => exact ⟨h.pivotListed hu e l, rfl⟩
  | succ n ih =>
      unfold Tableau.minimiseListed Tableau.minimise
      rw [h.entering?_eq]
      cases u.entering? o with
      | none => exact ⟨h, rfl⟩
      | some e =>
          dsimp only
          rw [h.leaving?_eq]
          cases hl : u.leaving? e with
          | none => exact ⟨h, rfl⟩
          | some l =>
              obtain ⟨row, hrow, hmem⟩ := hu.exists_row_of_leaving? hl
              exact ih (h.pivotListed hu e l) (hu.pivot hrow hmem)

theorem Same.dropArtificialListed
    (artificial : Symbol) :
    Option.Rel Same (t.dropArtificialListed artificial) (u.dropArtificial artificial) := by
  unfold Tableau.dropArtificialListed Tableau.dropArtificial
  rw [h.row?_eq]
  cases hrow : u.row? artificial with
  | none => exact .some (h.removeListed hu artificial)
  | some row =>
      dsimp only
      split
      · rcases h.removeRow artificial with ⟨hv, hw⟩ | ⟨_, v, w, hv, hw, hrest⟩
        · rw [hv, hw]
          exact .none
        · rw [hv, hw]
          exact .some hrest
      · cases hfind : row.symbols.find? Symbol.isSlack with
        | none => exact .none
        | some entering =>
            have hpivot := hu.pivot hrow (List.mem_of_find?_eq_some hfind)
            exact .some ((h.pivotListed hu entering artificial).removeListed hpivot artificial)

theorem Same.tryAcceptListed
    (hphase : u.FirstPhase row artificial goal)
    (further : Nat) :
    Option.Rel Same (t.tryAcceptListed row artificial goal further).1
        (u.tryAccept row artificial goal further).1 ∧
      (t.tryAcceptListed row artificial goal further).2 =
        (u.tryAccept row artificial goal further).2 := by
  have hconsistent := hu.withArtificial hphase
  obtain ⟨hminimised, hending⟩ := Same.minimiseListed
    ((h.addRow goal row).addRow artificial row) hconsistent goal further
  unfold Tableau.tryAcceptListed Tableau.tryAccept
  rw [addRowListing_eq, addRowListing_eq]
  dsimp only
  rcases hminimised.removeRow goal with ⟨hv, hw⟩ | ⟨reached, v, w, hv, hw, hrest⟩
  · rw [hv, hw]
    exact ⟨.none, hending⟩
  · rw [hv, hw]
    dsimp only
    split
    · have hremoved := (hconsistent.minimise goal further).removeRow hw
      exact ⟨hrest.dropArtificialListed hremoved artificial, hending⟩
    · exact ⟨.none, hending⟩

theorem Same.chargeListed
    (k : K) (error : Symbol) :
    (t.chargeListed k error).Same (u.charge k error) := by
  unfold Tableau.chargeListed Tableau.charge
  have hrelated := related_eq_iff.2 h
  rw [h.row?_eq]
  cases u.row? error with
  | none =>
      exact ((h.consistent hu).addTermTo_same .objective error k).trans
        (related_eq_iff.1 (hrelated.addTermTo biUnique_eq rfl rfl))
  | some row =>
      exact ((h.consistent hu).addRowTo_same .objective row k).trans
        (related_eq_iff.1 (hrelated.addRowTo biUnique_eq rfl (Row.related_eq_iff.2 rfl)))

theorem Same.chargeAllListed
    (markers : Markers) (k : K) :
    (t.chargeAllListed markers k).Same (u.chargeAll markers k) := by
  unfold Tableau.chargeAllListed Tableau.chargeAll
  induction markers.errors generalizing t u with
  | nil =>
      exact h
  | cons error errors ih =>
      exact ih (h.chargeListed hu k error) (hu.charge k error)

theorem Same.deleteMarkerListed
    (marker : Symbol) :
    (t.deleteMarkerListed marker).Same (u.deleteMarker marker) := by
  unfold Tableau.deleteMarkerListed Tableau.deleteMarker
  rcases h.removeRow marker with ⟨hv, hw⟩ | ⟨_, v, w, hv, hw, hrest⟩
  · rw [hv, hw]
    dsimp only
    rw [h.exit?_eq]
    cases u.exit? marker with
    | none => exact h.removeListed hu marker
    | some leaving =>
        have hpivot := h.pivotListed hu marker leaving
        dsimp only
        unfold Tableau.deleteRow
        rcases hpivot.removeRow marker with ⟨hx, hy⟩ | ⟨_, x, y, hx, hy, hrest⟩
        · rw [hx, hy]
          exact hpivot
        · rw [hx, hy]
          exact hrest
  · rw [hv, hw]
    exact hrest

theorem Same.retractListed
    (markers : Markers) (weight : K) :
    (t.retractListed markers weight).Same (u.retract markers weight) := by
  have hcharged := hu.chargeAll markers (-weight)
  have hdeleted := (h.chargeAllListed hu markers (-weight)).deleteMarkerListed hcharged
    markers.marker
  have hconsistent := hcharged.deleteMarker markers.marker
  unfold Tableau.retractListed Tableau.retract
  dsimp only
  generalize (t.chargeAllListed markers (-weight)).deleteMarkerListed markers.marker = v,
    (u.chargeAll markers (-weight)).deleteMarker markers.marker = w at hdeleted hconsistent
  induction markers.errors.filter (· ≠ markers.marker) generalizing v w with
  | nil =>
      exact hdeleted
  | cons error errors ih =>
      exact ih _ _ (hdeleted.removeListed hconsistent error) (hconsistent.removeColumn error)

end Steps

end Tableau
end LinearLayout
