import LinearLayout.Proofs.Markers
import LinearLayout.Proofs.Tableau.Removal

/-!
# Where near-zero cells come from

A sum drops a cell that cancels, so adding rows, substituting and charging leave no cell behind
that counts as cancelled.  Solving a row for a symbol divides its cells, and nothing is dropped
there.  So a cell that counts as cancelled was there before, or it stands as it is in a row that was
solved for a symbol.  Rows of objectives are never solved, and have no such cell at all.
-/

namespace LinearLayout

variable {K : Type} [Scalar K]

namespace Row

variable {r o : Row K} {origins more : List (Row K)} {s : Symbol} {k : K}

/-- No cell of the row counts as cancelled. -/
def Pruned (r : Row K) : Prop :=
  ∀ x c, r.cells.get? x = some c → Scalar.isNegligible c = false

/-- Every cell that counts as cancelled stands in one of the listed rows as well. -/
def Traced (origins : List (Row K)) (r : Row K) : Prop :=
  ∀ x c, r.cells.get? x = some c → Scalar.isNegligible c = true →
    ∃ o ∈ origins, o.cells.get? x = some c

theorem Pruned.traced
    (h : r.Pruned)
    (origins : List (Row K)) :
    r.Traced origins := by
  intro x c hc hnegligible
  rw [h x c hc] at hnegligible
  cases hnegligible

theorem traced_of_mem
    (h : r ∈ origins) :
    r.Traced origins :=
  fun _ _ hc _ => ⟨r, h, hc⟩

theorem Traced.mono
    (h : r.Traced origins)
    (hsub : origins ⊆ more) :
    r.Traced more := by
  intro x c hc hnegligible
  obtain ⟨o, ho, hcell⟩ := h x c hc hnegligible
  exact ⟨o, hsub ho, hcell⟩

/-- Origins without near-zero cells are the origin of none. -/
theorem Traced.pruned
    (h : r.Traced origins)
    (horigins : ∀ o ∈ origins, o.Pruned) :
    r.Pruned := by
  intro x c hc
  cases hnegligible : Scalar.isNegligible c with
  | false => rfl
  | true =>
      obtain ⟨o, ho, hcell⟩ := h x c hc hnegligible
      rw [horigins o ho x c hcell] at hnegligible
      cases hnegligible

theorem pruned_iff_traced_nil :
    r.Pruned ↔ r.Traced [] :=
  ⟨fun h => h.traced [], fun h => h.pruned (by simp)⟩

theorem pruned_ofConstant
    (x : K) :
    (ofConstant x).Pruned := by
  intro i c hc
  cases hc

/-- What a cell holds after a sum does not count as cancelled. -/
theorem isNegligible_of_accumulate
    {c : K} {cell : Option K}
    (h : accumulate k cell = some c) :
    Scalar.isNegligible c = false := by
  cases cell with
  | none =>
      obtain ⟨hk, rfl⟩ := prune_eq_some_iff.1 h
      exact hk
  | some b =>
      obtain ⟨hk, rfl⟩ := prune_eq_some_iff.1 h
      exact hk

theorem Traced.addTerm
    (h : r.Traced origins)
    (s : Symbol) (k : K) :
    (r.addTerm s k).Traced origins := by
  intro x c hc hnegligible
  rw [get?_addTerm] at hc
  split at hc
  · rw [isNegligible_of_accumulate hc] at hnegligible
    cases hnegligible
  · exact h x c hc hnegligible

theorem Traced.addTerms
    (h : r.Traced origins)
    (terms : List (Symbol × K)) (k : K) :
    (r.addTerms terms k).Traced origins := by
  induction terms generalizing r with
  | nil =>
      exact h
  | cons t terms ih =>
      exact ih (h.addTerm t.1 (t.2 * k))

/-- Whatever row is added, its cells are pruned on the way. -/
theorem Traced.addRow
    (h : r.Traced origins)
    (other : Row K) (k : K) :
    (r.addRow other k).Traced origins :=
  Traced.addTerms (r := { r with constant := r.constant + k * other.constant }) h _ _

theorem Traced.without
    (h : r.Traced origins)
    (s : Symbol) :
    (r.without s).Traced origins := by
  intro x c hc hnegligible
  rw [get?_without] at hc
  split at hc
  · cases hc
  · exact h x c hc hnegligible

theorem Traced.substitute
    (h : r.Traced origins)
    (s : Symbol) (replacement : Row K) :
    (r.substitute s replacement).Traced origins := by
  unfold Row.substitute
  split
  · exact h
  · exact (h.without s).addRow replacement _

end Row

namespace Tableau

variable {t t' : Tableau K} {row r : Row K} {origins : List (Row K)}
variable {b s o subject entering leaving artificial goal marker error : Symbol}
variable {markers : Markers} {k w : K} {further : Nat}

/-- The rows that a near-zero cell in the row of a symbol may come from: none for an objective. -/
def originsOf (origins : List (Row K)) (b : Symbol) : List (Row K) :=
  if b.isObjective then [] else origins

/-- Every near-zero cell stands in one of the listed rows, and objectives have none. -/
def Traced (origins : List (Row K)) (t : Tableau K) : Prop :=
  ∀ b r, t.row? b = some r → r.Traced (originsOf origins b)

omit [Scalar K] in
theorem originsOf_of_not_isObjective
    (h : b.isObjective = false) :
    originsOf origins b = origins := by
  rw [originsOf, h]
  rfl

omit [Scalar K] in
theorem originsOf_subset
    (origins : List (Row K)) (b : Symbol) :
    originsOf origins b ⊆ origins := by
  unfold originsOf
  split
  · exact List.nil_subset _
  · exact List.Subset.refl _

section Solved

/-- The row that a pivot solves for its entering symbol. -/
def pivotSolved (t : Tableau K) (entering leaving : Symbol) : List (Row K) :=
  ((t.row? leaving).map fun row => row.exchange leaving entering).toList

/-- The rows that the pivots of a minimisation solve. -/
def minimiseSolved (objective : Symbol) (further : Nat) (t : Tableau K) : List (Row K) :=
  match t.entering? objective with
  | none => []
  | some entering =>
    match t.leaving? entering with
    | none => []
    | some leaving =>
      t.pivotSolved entering leaving ++
        match further with
        | 0 => []
        | n + 1 => minimiseSolved objective n (t.pivot entering leaving)

/-- The row that is solved for a slack when an artificial symbol goes. -/
def dropSolved (t : Tableau K) (artificial : Symbol) : List (Row K) :=
  match t.row? artificial with
  | none => []
  | some row =>
    if row.isConstant then []
    else (row.symbols.find? Symbol.isSlack).toList.flatMap fun entering =>
      t.pivotSolved entering artificial

/-- The rows that a first phase solves. -/
def acceptSolved (t : Tableau K) (row : Row K) (artificial goal : Symbol) (further : Nat) :
    List (Row K) :=
  let started := t.withArtificial row artificial goal
  started.minimiseSolved goal further ++
    match (started.minimise goal further).1.removeRow goal with
    | none => []
    | some (_, rest) => rest.dropSolved artificial

/-- The row that is solved for a marker before its row is deleted. -/
def deleteSolved (t : Tableau K) (marker : Symbol) : List (Row K) :=
  match t.row? marker with
  | some _ => []
  | none => (t.exit? marker).toList.flatMap fun leaving => t.pivotSolved marker leaving

end Solved

section Changes

theorem traced_empty :
    (∅ : Tableau K).Traced origins := by
  intro b r hb
  cases hb

theorem Traced.addRow
    (h : t.Traced origins)
    (hrow : row.Traced (originsOf origins b)) :
    (t.addRow b row).Traced origins := by
  intro c r hc
  rcases row?_addRow_eq_some hc with ⟨rfl, rfl⟩ | ⟨_, hc⟩
  · exact hrow
  · exact h c r hc

theorem Traced.removeRow
    (h : t.Traced origins)
    (hremove : t.removeRow b = some (row, t')) :
    t'.Traced origins :=
  fun c r hc => h c r (row?_of_removeRow_eq_some hremove hc).2

theorem Traced.removeColumn
    (h : t.Traced origins)
    (s : Symbol) :
    (t.removeColumn s).Traced origins := by
  intro b r hb
  obtain ⟨q, hq, rfl⟩ := row?_removeColumn_eq_some hb
  exact (h b q hq).without s

theorem Traced.substitute
    (h : t.Traced origins)
    (s : Symbol) (replacement : Row K) :
    (t.substitute s replacement).Traced origins := by
  intro b r hb
  rw [row?_substitute] at hb
  obtain ⟨q, hq, rfl⟩ := Option.map_eq_some_iff.1 hb
  exact (h b q hq).substitute s replacement

/-- A pivot solves one row, and all other rows are sums. -/
theorem Traced.pivot
    (h : t.Traced origins)
    (he : entering.isObjective = false)
    (hsolved : t.pivotSolved entering leaving ⊆ origins) :
    (t.pivot entering leaving).Traced origins := by
  unfold Tableau.pivot
  split
  · exact h
  · next row rest hremove =>
      have hl := (row?_of_removeRow hremove).1
      refine ((h.removeRow hremove).substitute entering _).addRow ?_
      rw [originsOf_of_not_isObjective he]
      exact Row.traced_of_mem (hsolved (by simp [pivotSolved, hl]))

theorem Traced.pivot_of_entering?
    (h : t.Traced origins)
    (hentering : t.entering? o = some entering)
    (hsolved : t.pivotSolved entering leaving ⊆ origins) :
    (t.pivot entering leaving).Traced origins := by
  obtain ⟨_, _, _, _, hslack, _⟩ := exists_of_entering? hentering
  exact h.pivot (Symbol.isObjective_of_isSlack hslack) hsolved

/-- A row is never solved for the subject of an objective. -/
theorem isObjective_of_chooseEntry
    (h : t.chooseEntry row = .solveFor subject) :
    subject.isObjective = false := by
  obtain ⟨hmem, hfree | ⟨_, _, ⟨hslack, _⟩ | ⟨hdummy, _⟩⟩⟩ := chooseEntry_eq_solveFor h
  · exact Symbol.isObjective_of_isFree hfree
  · exact Symbol.isObjective_of_isSlack hslack
  · exact Symbol.isObjective_of_isDummy (hdummy subject hmem)

theorem Traced.install
    (h : t.Traced origins)
    (hs : subject.isObjective = false)
    (hsolved : row.solveFor subject ∈ origins) :
    (t.install subject row).Traced origins := by
  refine (h.substitute subject _).addRow ?_
  rw [originsOf_of_not_isObjective hs]
  exact Row.traced_of_mem hsolved

theorem Traced.minimise
    (h : t.Traced origins)
    (hsolved : t.minimiseSolved o further ⊆ origins) :
    (t.minimise o further).1.Traced origins := by
  induction further generalizing t with
  | zero =>
      unfold Tableau.minimise
      unfold minimiseSolved at hsolved
      split
      · exact h
      · next entering hentering =>
          rw [hentering] at hsolved
          split
          · exact h
          · next leaving hl =>
              simp only [hl, List.append_nil] at hsolved
              exact h.pivot_of_entering? hentering hsolved
  | succ n ih =>
      unfold Tableau.minimise
      unfold minimiseSolved at hsolved
      split
      · exact h
      · next entering hentering =>
          rw [hentering] at hsolved
          split
          · exact h
          · next leaving hl =>
              simp only [hl, List.append_subset] at hsolved
              exact ih (h.pivot_of_entering? hentering hsolved.1) hsolved.2

theorem Traced.withArtificial
    (h : t.Traced origins)
    (hrow : row.Pruned)
    (artificial goal : Symbol) :
    (t.withArtificial row artificial goal).Traced origins :=
  (h.addRow (hrow.traced _)).addRow (hrow.traced _)

theorem Traced.dropArtificial
    (h : t.Traced origins)
    (hdrop : t.dropArtificial artificial = some t')
    (hsolved : t.dropSolved artificial ⊆ origins) :
    t'.Traced origins := by
  unfold Tableau.dropArtificial at hdrop
  unfold dropSolved at hsolved
  split at hdrop
  · cases hdrop
    exact h.removeColumn artificial
  · next row hrow =>
      rw [hrow] at hsolved
      dsimp only at hsolved
      split at hdrop
      · obtain ⟨⟨q, rest⟩, hremove, hrest⟩ := Option.map_eq_some_iff.1 hdrop
        cases hrest
        exact h.removeRow hremove
      · next hconstant =>
          obtain ⟨entering, hentering, ht'⟩ := Option.map_eq_some_iff.1 hdrop
          have hslack : entering.isSlack = true := List.find?_some hentering
          rw [if_neg hconstant, hentering] at hsolved
          subst ht'
          refine (h.pivot (Symbol.isObjective_of_isSlack hslack) ?_).removeColumn artificial
          simpa using hsolved

theorem Traced.tryAccept
    (h : t.Traced origins)
    (hrow : row.Pruned)
    (haccept : (t.tryAccept row artificial goal further).1 = some t')
    (hsolved : t.acceptSolved row artificial goal further ⊆ origins) :
    t'.Traced origins := by
  obtain ⟨reached, rest, hremove, _, hdrop⟩ := tryAccept_eq_some haccept
  simp only [acceptSolved, hremove, List.append_subset] at hsolved
  exact (((h.withArtificial hrow artificial goal).minimise hsolved.1).removeRow
    hremove).dropArtificial hdrop hsolved.2

/-- Only the objective row is charged, and it stays free of near-zero cells. -/
theorem Traced.charge
    (h : t.Traced origins)
    (k : K) (error : Symbol) :
    (t.charge k error).Traced origins := by
  intro b r hb
  by_cases hbo : b = .objective
  · subst hbo
    unfold Tableau.charge at hb
    split at hb
    · next row hrow =>
        rcases row?_addRowTo_eq_some hb with ⟨_, q, hq, rfl⟩ | ⟨_, hb⟩
        · exact (h _ q hq).addRow row k
        · exact h _ r hb
    · rcases row?_addTermTo_eq_some hb with ⟨_, q, hq, rfl⟩ | ⟨_, hb⟩
      · exact (h _ q hq).addTerm error k
      · exact h _ r hb
  · rw [row?_charge_of_ne hbo] at hb
    exact h b r hb

theorem Traced.chargeAll
    (h : t.Traced origins)
    (markers : Markers) (k : K) :
    (t.chargeAll markers k).Traced origins :=
  chargeAll_induction (fun _ error h _ => h.charge k error) h

theorem Traced.deleteMarker
    (h : t.Traced origins)
    (hmarker : marker.isObjective = false)
    (hsolved : t.deleteSolved marker ⊆ origins) :
    (t.deleteMarker marker).Traced origins := by
  unfold Tableau.deleteMarker
  unfold deleteSolved at hsolved
  split
  · next row rest hremove => exact h.removeRow hremove
  · next hremove =>
      rw [removeRow_eq_none_iff.1 hremove] at hsolved
      dsimp only at hsolved
      split
      · next leaving hexit =>
          have hpivot : (t.pivot marker leaving).Traced origins :=
            h.pivot hmarker (by simpa [hexit] using hsolved)
          unfold deleteRow
          cases hrow : (t.pivot marker leaving).removeRow marker with
          | none => exact hpivot
          | some removed => exact hpivot.removeRow hrow
      · exact h.removeColumn marker

theorem Traced.retract
    (h : t.Traced origins)
    (hproper : markers.Proper)
    (hsolved : (t.chargeAll markers (-w)).deleteSolved markers.marker ⊆ origins) :
    (t.retract markers w).Traced origins :=
  retract_induction (fun _ error h _ _ => h.removeColumn error)
    ((h.chargeAll markers (-w)).deleteMarker
      (hproper.isObjective markers.marker_mem_symbols) hsolved)

end Changes

end Tableau
end LinearLayout
