import LinearLayout.Proofs.Markers
import LinearLayout.Proofs.Tableau.Removal

/-!
# Parts of a tableau

The symbols of a tableau may fall into two parts such that no row, objectives apart, connects the
one with the other.  All changes of a tableau keep the parts separate, and a change in one part
leaves the rows of the other exactly as they are.  The objectives are shared: there the cells of
the other part stay, though their order need not.

Nothing is assumed of the arithmetic.
-/

namespace LinearLayout
namespace Tableau

variable {K : Type} {t u w : Tableau K} {S T : Symbol → Prop} {row r : Row K}
variable {b o s x basic entering leaving : Symbol}

/-- Objectives apart, every row is about symbols of its own part alone. -/
def Split (S : Symbol → Prop) (t : Tableau K) : Prop :=
  ∀ b r, t.row? b = some r → b.isObjective = false → ∀ s ∈ r.symbols, (S s ↔ S b)

/-- The stored coefficient of a symbol in the row of `b`. -/
def cell? (t : Tableau K) (b s : Symbol) : Option K :=
  (t.row? b).bind fun r => r.cells.get? s

/-- Outside a part, the second tableau has the rows and the objective cells of the first. -/
structure Spares (S : Symbol → Prop) (t u : Tableau K) : Prop where
  row?_eq : ∀ b, b.isObjective = false → ¬ S b → u.row? b = t.row? b
  cell?_eq : ∀ o s, o.isObjective = true → ¬ S s → u.cell? o s = t.cell? o s

section Cells

theorem cell?_of_row?
    (h : t.row? b = some row) :
    t.cell? b s = row.cells.get? s := by
  rw [cell?, h]
  rfl

theorem cell?_of_row?_eq_none
    (h : t.row? b = none) :
    t.cell? b s = none := by
  rw [cell?, h]
  rfl

theorem cell?_congr
    (h : u.row? b = t.row? b) :
    u.cell? b s = t.cell? b s := by
  rw [cell?, cell?, h]

/-- What leaves the cell of a symbol alone in every row leaves it alone in the tableau. -/
theorem cell?_eq_of_row?_map
    {f : Row K → Row K}
    (h : u.row? b = (t.row? b).map f)
    (hf : ∀ r : Row K, (f r).cells.get? s = r.cells.get? s) :
    u.cell? b s = t.cell? b s := by
  rw [cell?, cell?, h]
  cases t.row? b with
  | none => rfl
  | some r => exact hf r

end Cells

section Separate

theorem Split.addRow
    (h : t.Split S)
    (hrow : basic.isObjective = false → ∀ s ∈ row.symbols, (S s ↔ S basic)) :
    (t.addRow basic row).Split S := by
  intro b r hb
  rcases row?_addRow_eq_some hb with ⟨rfl, rfl⟩ | ⟨_, hb⟩
  · exact hrow
  · exact h b r hb

theorem Split.removeRow
    (h : t.Split S)
    (hremove : t.removeRow basic = some (row, u)) :
    u.Split S :=
  fun b r hb => h b r (row?_of_removeRow_eq_some hremove hb).2

theorem Split.removeColumn
    (h : t.Split S)
    (x : Symbol) :
    (t.removeColumn x).Split S := by
  intro b r hb hbo s hs
  obtain ⟨q, hq, rfl⟩ := row?_removeColumn_eq_some hb
  exact h b q hq hbo s (Row.mem_symbols_without.1 hs).2

/-- Which symbols are in the part matters only for symbols of the tableau. -/
theorem Split.congr
    (h : t.Split S)
    (hwithin : t.Within T)
    {S' : Symbol → Prop}
    (heq : ∀ x, T x → (S' x ↔ S x)) :
    t.Split S' := by
  intro b r hb hbo s hs
  rw [heq b (hwithin b r hb).1, heq s ((hwithin b r hb).2 s hs)]
  exact h b r hb hbo s hs

/-- What leaves rows without a symbol of the part alone leaves the rows of the other part alone. -/
theorem Split.map_row?_of_off
    {f : Row K → Row K}
    (h : t.Split S)
    (hx : S x)
    (hbo : b.isObjective = false)
    (hb : ¬ S b)
    (hf : ∀ r : Row K, x ∉ r.symbols → f r = r) :
    (t.row? b).map f = t.row? b := by
  cases hrow : t.row? b with
  | none =>
      rfl
  | some r =>
      have hunmentioned : x ∉ r.symbols := fun hmem => hb ((h b r hrow hbo x hmem).1 hx)
      rw [Option.map_some, hf r hunmentioned]

variable [Scalar K]

/-- Solving a row keeps it in its part, and it is put into rows of the same part only. -/
theorem Split.pivot
    (h : t.Split S)
    (hl : t.row? leaving = some row)
    (hlo : leaving.isObjective = false)
    (he : entering ∈ row.symbols) :
    (t.pivot entering leaving).Split S := by
  have hside : S entering ↔ S leaving := h leaving row hl hlo entering he
  have hsolved : ∀ s ∈ (row.exchange leaving entering).symbols, (S s ↔ S entering) := by
    intro s hs
    rcases Row.mem_symbols_exchange.1 hs with rfl | hs
    · exact hside.symm
    · exact (h leaving row hl hlo s hs.2).trans hside.symm
  intro b r hb hbo
  rcases row?_pivot_eq_some hl hb with ⟨rfl, rfl⟩ | ⟨_, _, q, hq, rfl⟩
  · exact hsolved
  · intro s hs
    rcases Row.mem_symbols_of_mem_substitute hs with ⟨_, hs⟩ | ⟨hentering, hs⟩
    · exact h b q hq hbo s hs
    · exact (hsolved s hs).trans (h b q hq hbo entering hentering)

theorem Split.minimise
    (h : t.Split S)
    (hconsistent : t.Consistent)
    (o : Symbol)
    (further : Nat) :
    (t.minimise o further).1.Split S := by
  refine (minimise_induction (P := fun t => t.Consistent ∧ t.Split S) ?_ further
    ⟨hconsistent, h⟩).2
  rintro t entering leaving ⟨hconsistent, h⟩ _ hl
  obtain ⟨row, hrow, hmem⟩ := hconsistent.exists_row_of_leaving? hl
  have hlo := Symbol.isObjective_of_isRestricted (exists_of_leaving? hl).2.1
  exact ⟨hconsistent.pivot hrow hmem, h.pivot hrow hlo hmem⟩

end Separate

section Spared

theorem Spares.refl :
    Spares S t t :=
  ⟨fun _ _ _ => rfl, fun _ _ _ _ => rfl⟩

theorem Spares.trans
    (h : Spares S t u)
    (h' : Spares S u w) :
    Spares S t w :=
  ⟨fun b hbo hb => (h'.row?_eq b hbo hb).trans (h.row?_eq b hbo hb),
    fun o s ho hs => (h'.cell?_eq o s ho hs).trans (h.cell?_eq o s ho hs)⟩

/-- A new row over symbols of the part, of a symbol of the part or of a new objective. -/
theorem spares_addRow
    (hnone : t.row? basic = none)
    (hrow : ∀ s ∈ row.symbols, S s)
    (hbasic : basic.isObjective = false → S basic) :
    Spares S t (t.addRow basic row) := by
  refine ⟨fun b hbo hb => ?_, fun o s _ hs => ?_⟩
  · have hne : b ≠ basic := by
      rintro rfl
      exact hb (hbasic hbo)
    rw [row?_addRow, if_neg hne]
  · by_cases hob : o = basic
    · subst hob
      have hself : (t.addRow o row).row? o = some row := by
        rw [row?_addRow, if_pos rfl]
      rw [cell?_of_row? hself, cell?_of_row?_eq_none hnone]
      exact Row.not_mem_symbols_iff.1 fun hmem => hs (hrow s hmem)
    · refine cell?_congr ?_
      rw [row?_addRow, if_neg hob]

theorem spares_removeRow
    (hremove : t.removeRow basic = some (row, u))
    (hbasic : basic.isObjective = false → S basic)
    (hrow : basic.isObjective = true → ∀ s ∈ row.symbols, S s) :
    Spares S t u := by
  obtain ⟨hbasicRow, hrows⟩ := row?_of_removeRow hremove
  refine ⟨fun b hbo hb => ?_, fun o s ho hs => ?_⟩
  · have hne : b ≠ basic := by
      rintro rfl
      exact hb (hbasic hbo)
    rw [hrows, if_neg hne]
  · by_cases hob : o = basic
    · subst hob
      have hgone : u.row? o = none := by
        rw [hrows, if_pos rfl]
      rw [cell?_of_row?_eq_none hgone, cell?_of_row? hbasicRow]
      exact (Row.not_mem_symbols_iff.1 fun hmem => hs (hrow ho s hmem)).symm
    · refine cell?_congr ?_
      rw [hrows, if_neg hob]

/-- The row of a symbol of the part, no objective, is about the part alone. -/
theorem spares_removeRow_of_mem
    (hremove : t.removeRow basic = some (row, u))
    (hobjective : basic.isObjective = false)
    (hbasic : S basic) :
    Spares S t u := by
  refine spares_removeRow hremove (fun _ => hbasic) fun ho => ?_
  rw [hobjective] at ho
  cases ho

theorem Split.spares_removeColumn
    (h : t.Split S)
    (hx : S x) :
    Spares S t (t.removeColumn x) := by
  refine ⟨fun b hbo hb => ?_, fun o s _ hs => ?_⟩
  · rw [row?_removeColumn]
    exact h.map_row?_of_off hx hbo hb fun r hunmentioned => Row.without_of_not_mem hunmentioned
  · have hsx : s ≠ x := by
      rintro rfl
      exact hs hx
    exact cell?_eq_of_row?_map row?_removeColumn fun r => Row.get?_without.trans (if_neg hsx)

variable [Scalar K]

/-- A pivot between symbols of the part. -/
theorem Split.spares_pivot
    (h : t.Split S)
    (hl : t.row? leaving = some row)
    (hlo : leaving.isObjective = false)
    (hmem : entering ∈ row.symbols)
    (he : S entering)
    (heo : entering.isObjective = false) :
    Spares S t (t.pivot entering leaving) := by
  have hleaving : S leaving := (h leaving row hl hlo entering hmem).1 he
  have hsolved : ∀ s, ¬ S s → s ∉ (row.exchange leaving entering).symbols := by
    intro s hs hsr
    rcases Row.mem_symbols_exchange.1 hsr with rfl | hsr
    · exact hs hleaving
    · exact hs ((h leaving row hl hlo s hsr.2).2 hleaving)
  have hne : ∀ {b}, ¬ S b → b ≠ entering ∧ b ≠ leaving := by
    intro b hb
    constructor <;> rintro rfl
    · exact hb he
    · exact hb hleaving
  refine ⟨fun b hbo hb => ?_, fun o s ho hs => ?_⟩
  · rw [row?_pivot hl, if_neg (hne hb).1, if_neg (hne hb).2]
    exact h.map_row?_of_off he hbo hb fun r hunmentioned =>
      Row.substitute_of_not_mem hunmentioned
  · have hoe : o ≠ entering := (Symbol.ne_of_isObjective heo ho).symm
    have hol : o ≠ leaving := (Symbol.ne_of_isObjective hlo ho).symm
    have hrow : (t.pivot entering leaving).row? o =
        (t.row? o).map fun r => r.substitute entering (row.exchange leaving entering) := by
      rw [row?_pivot hl, if_neg hoe, if_neg hol]
    exact cell?_eq_of_row?_map hrow fun r =>
      (Row.get?_substitute_of_not_mem (hsolved s hs)).trans (if_neg (hne hs).1)

/-- No slack outside the part lowers the objective. -/
def Quiet (S : Symbol → Prop) (o : Symbol) (t : Tableau K) : Prop :=
  ∀ s c, ¬ S s → s.isSlack = true → t.cell? o s = some c → Scalar.less c 0 = false

theorem Quiet.of_spares
    (h : t.Quiet S o)
    (ho : o.isObjective = true)
    (hspares : Spares S t u) :
    u.Quiet S o := by
  intro s c hs hslack hc
  rw [hspares.cell?_eq o s ho hs] at hc
  exact h s c hs hslack hc

theorem quiet_of_entering?_eq_none
    (h : t.entering? o = none) :
    t.Quiet S o := by
  intro s c _ hslack hc
  obtain ⟨r, hr, hcell⟩ := Option.bind_eq_some_iff.1 hc
  rw [entering?, hr, Option.bind_some, Option.map_eq_none_iff, List.find?_eq_none] at h
  simpa [hslack] using h (s, c) (OrderedMap.get?_eq_some_iff.1 hcell)

/-- As long as no slack outside the part lowers the objective, all pivots are in the part. -/
theorem Split.spares_minimise
    (h : t.Split S)
    (hconsistent : t.Consistent)
    (ho : o.isObjective = true)
    (hquiet : t.Quiet S o)
    (further : Nat) :
    Spares S t (t.minimise o further).1 := by
  refine (minimise_induction (P := fun u => u.Consistent ∧ u.Split S ∧ Spares S t u) ?_ further
    ⟨hconsistent, h, Spares.refl⟩).2.2
  rintro u entering leaving ⟨hconsistent, h, hspares⟩ hentering hl
  obtain ⟨row, hrow, hmem⟩ := hconsistent.exists_row_of_leaving? hl
  have hlo := Symbol.isObjective_of_isRestricted (exists_of_leaving? hl).2.1
  obtain ⟨goal, c, hgoal, hc, hslack, hless⟩ := exists_of_entering? hentering
  have he : S entering := by
    refine Classical.byContradiction fun hoff => ?_
    have hpositive := hquiet.of_spares ho hspares entering c hoff hslack
      ((cell?_of_row? hgoal).trans hc)
    rw [hless] at hpositive
    cases hpositive
  exact ⟨hconsistent.pivot hrow hmem, h.pivot hrow hlo hmem,
    hspares.trans (h.spares_pivot hrow hlo hmem he (Symbol.isObjective_of_isSlack hslack))⟩

end Spared

section Entering

variable [Scalar K] {subject artificial goal : Symbol} {further : Nat}

theorem Split.install
    (h : t.Split S)
    (hrow : ∀ s ∈ row.symbols, (S s ↔ S subject)) :
    (t.install subject row).Split S := by
  intro b r hb hbo s hs
  rcases row?_install_eq_some hb with ⟨rfl, rfl⟩ | ⟨_, q, hq, rfl⟩
  · exact hrow s (Row.mem_symbols_solveFor.1 hs).2
  · rcases Row.mem_symbols_of_mem_substitute hs with ⟨_, hs⟩ | ⟨hsubject, hs⟩
    · exact h b q hq hbo s hs
    · exact (hrow s (Row.mem_symbols_solveFor.1 hs).2).trans (h b q hq hbo subject hsubject)

theorem Split.spares_install
    (h : t.Split S)
    (hmem : subject ∈ row.symbols)
    (hobjective : subject.isObjective = false)
    (hrow : ∀ s ∈ row.symbols, S s) :
    Spares S t (t.install subject row) := by
  have hsubject := hrow subject hmem
  have hrows : ∀ i, i ≠ subject → (t.install subject row).row? i =
      (t.row? i).map fun r => r.substitute subject (row.solveFor subject) := by
    intro i hi
    rw [Tableau.install, row?_addRow, if_neg hi, row?_substitute]
  refine ⟨fun b hbo hb => ?_, fun o s ho hs => ?_⟩
  · have hne : b ≠ subject := by
      rintro rfl
      exact hb hsubject
    rw [hrows b hne]
    exact h.map_row?_of_off hsubject hbo hb fun r hunmentioned =>
      Row.substitute_of_not_mem hunmentioned
  · have hsolved : s ∉ (row.solveFor subject).symbols :=
      fun hmem => hs (hrow s (Row.mem_symbols_solveFor.1 hmem).2)
    have hne : s ≠ subject := by
      rintro rfl
      exact hs hsubject
    exact cell?_eq_of_row?_map (hrows o (Symbol.ne_of_isObjective hobjective ho).symm) fun r =>
      (Row.get?_substitute_of_not_mem hsolved).trans (if_neg hne)

theorem Split.dropArtificial
    (h : t.Split S)
    (hartificial : artificial.isObjective = false)
    (hdrop : t.dropArtificial artificial = some u) :
    u.Split S := by
  rcases dropArtificial_eq_some hdrop with
    ⟨_, rfl⟩ | ⟨row, _, hremove⟩ | ⟨row, entering, hrow, hmem, _, rfl⟩
  · exact h.removeColumn artificial
  · exact h.removeRow hremove
  · exact (h.pivot hrow hartificial hmem).removeColumn artificial

theorem Split.spares_dropArtificial
    (h : t.Split S)
    (hobjective : artificial.isObjective = false)
    (hartificial : S artificial)
    (hdrop : t.dropArtificial artificial = some u) :
    Spares S t u := by
  rcases dropArtificial_eq_some hdrop with
    ⟨_, rfl⟩ | ⟨row, _, hremove⟩ | ⟨row, entering, hrow, hmem, hslack, rfl⟩
  · exact h.spares_removeColumn hartificial
  · exact spares_removeRow_of_mem hremove hobjective hartificial
  · have hentering := (h artificial row hrow hobjective entering hmem).2 hartificial
    exact (h.spares_pivot hrow hobjective hmem hentering
      (Symbol.isObjective_of_isSlack hslack)).trans
        ((h.pivot hrow hobjective hmem).spares_removeColumn hartificial)

omit [Scalar K] in
theorem Split.withArtificial
    (h : t.Split S)
    (hphase : t.FirstPhase row artificial goal)
    (hrow : ∀ s ∈ row.symbols, (S s ↔ S artificial)) :
    (t.withArtificial row artificial goal).Split S := by
  refine (h.addRow fun hgoal => ?_).addRow fun _ => hrow
  rw [hphase.isObjective_goal] at hgoal
  cases hgoal

theorem Split.tryAccept
    (h : t.Split S)
    (hconsistent : t.Consistent)
    (hphase : t.FirstPhase row artificial goal)
    (hrow : ∀ s ∈ row.symbols, (S s ↔ S artificial))
    (haccept : (t.tryAccept row artificial goal further).1 = some u) :
    u.Split S := by
  obtain ⟨reached, rest, hremove, _, hdrop⟩ := tryAccept_eq_some haccept
  have hminimised := (h.withArtificial hphase hrow).minimise (hconsistent.withArtificial hphase)
    goal further
  exact (hminimised.removeRow hremove).dropArtificial hphase.isObjective hdrop

omit [Scalar K] in
theorem FirstPhase.cell?_goal
    (hphase : t.FirstPhase row artificial goal)
    (hs : s ∉ row.symbols) :
    (t.withArtificial row artificial goal).cell? goal s = none := by
  have hgoal : (t.withArtificial row artificial goal).row? goal = some row := by
    rw [Tableau.withArtificial, row?_addRow, if_neg hphase.ne.symm, row?_addRow, if_pos rfl]
  rw [cell?_of_row? hgoal]
  exact Row.not_mem_symbols_iff.1 hs

/-- The objective of a first phase is about symbols of the part alone, and so are its pivots. -/
theorem Split.spares_tryAccept
    (h : t.Split S)
    (hconsistent : t.Consistent)
    (hphase : t.FirstPhase row artificial goal)
    (hartificial : S artificial)
    (hrow : ∀ s ∈ row.symbols, S s)
    (haccept : (t.tryAccept row artificial goal further).1 = some u) :
    Spares S t u := by
  obtain ⟨reached, rest, hremove, _, hdrop⟩ := tryAccept_eq_some haccept
  have hside : ∀ s ∈ row.symbols, (S s ↔ S artificial) :=
    fun s hs => ⟨fun _ => hartificial, fun _ => hrow s hs⟩
  have hfirst := hconsistent.withArtificial hphase
  have hsplit := h.withArtificial hphase hside
  have hgoal : ∀ s, ¬ S s → (t.withArtificial row artificial goal).cell? goal s = none :=
    fun s hs => hphase.cell?_goal fun hmem => hs (hrow s hmem)
  have hquiet : (t.withArtificial row artificial goal).Quiet S goal := by
    intro s c hs _ hc
    rw [hgoal s hs] at hc
    cases hc
  have hminimised := hsplit.minimise hfirst goal further
  have hpivots := hsplit.spares_minimise hfirst hphase.isObjective_goal hquiet further
  have hreached : ∀ s ∈ reached.symbols, S s := by
    intro s hs
    refine Classical.byContradiction fun hoff => ?_
    obtain ⟨c, hc⟩ := Row.mem_symbols_iff.1 hs
    have hcell := (cell?_of_row? (row?_of_removeRow hremove).1).trans hc
    rw [hpivots.cell?_eq goal s hphase.isObjective_goal hoff, hgoal s hoff] at hcell
    cases hcell
  have hadded : Spares S t (t.withArtificial row artificial goal) := by
    refine (spares_addRow hphase.fresh_goal.1 hrow fun ho => ?_).trans
      (spares_addRow ?_ hrow fun _ => hartificial)
    · rw [hphase.isObjective_goal] at ho
      cases ho
    · exact (hphase.fresh.addRow hphase.ne hphase.not_mem).1
  refine hadded.trans (hpivots.trans ((spares_removeRow hremove (fun ho => ?_)
    fun _ => hreached).trans ((hminimised.removeRow hremove).spares_dropArtificial
      hphase.isObjective hartificial hdrop)))
  rw [hphase.isObjective_goal] at ho
  cases ho

end Entering

section Charging

variable [Scalar K] {markers : Markers} {error marker : Symbol} {k : K}

theorem Split.charge
    (h : t.Split S)
    (k : K)
    (error : Symbol) :
    (t.charge k error).Split S := by
  intro b r hb hbo
  rw [row?_charge_of_ne (Symbol.ne_of_isObjective hbo rfl)] at hb
  exact h b r hb hbo

/-- Charging an error changes the objective where the error or its row has cells. -/
theorem Split.spares_charge
    (h : t.Split S)
    (herror : S error)
    (hobjective : error.isObjective = false)
    (k : K) :
    Spares S t (t.charge k error) := by
  refine ⟨fun b hbo _ => row?_charge_of_ne (Symbol.ne_of_isObjective hbo rfl),
    fun o s _ hs => ?_⟩
  by_cases ho : o = .objective
  · subst ho
    have hse : s ≠ error := by
      rintro rfl
      exact hs herror
    cases hobj : t.row? .objective with
    | none =>
        refine cell?_congr ?_
        unfold Tableau.charge
        split
        · simp only [addRowTo, hobj]
        · simp only [addTermTo, hobj]
    | some r =>
        rw [cell?_of_row? hobj]
        unfold Tableau.charge
        split
        · next row hrow =>
            have hunmentioned : s ∉ row.symbols :=
              fun hmem => hs ((h error row hrow hobjective s hmem).2 herror)
            rw [cell?_of_row? ((row?_addRowTo hobj).trans (if_pos rfl)),
              Row.get?_addRow_of_not_mem hunmentioned]
        · rw [cell?_of_row? ((row?_addTermTo hobj).trans (if_pos rfl)), Row.get?_addTerm,
            if_neg hse]
  · exact cell?_congr (row?_charge_of_ne ho)

theorem Split.chargeAll
    (h : t.Split S)
    (markers : Markers)
    (k : K) :
    (t.chargeAll markers k).Split S :=
  chargeAll_induction (fun _ error h _ => h.charge k error) h

theorem Split.spares_chargeAll
    (h : t.Split S)
    (hproper : markers.Proper)
    (herrors : ∀ x ∈ markers.errors, S x)
    (k : K) :
    Spares S t (t.chargeAll markers k) := by
  refine (chargeAll_induction (P := fun u => u.Split S ∧ Spares S t u) ?_
    ⟨h, Spares.refl⟩).2
  rintro u error ⟨hsplit, hspares⟩ he
  exact ⟨hsplit.charge k error, hspares.trans (hsplit.spares_charge (herrors error he)
    (Symbol.isObjective_of_isRestricted (hproper.isRestricted_of_mem_errors he)) k)⟩

end Charging

section Leaving

variable [Scalar K] {markers : Markers} {marker : Symbol} {weight : K}

theorem Split.deleteMarker
    (h : t.Split S)
    (hconsistent : t.Consistent)
    (marker : Symbol) :
    (t.deleteMarker marker).Split S := by
  rcases hconsistent.deleteMarker_cases marker with
    ⟨row, hremove⟩ | ⟨leaving, row, solved, hexit, hrow, hmem, hremove⟩ | ⟨_, _, hcolumn⟩
  · exact h.removeRow hremove
  · exact (h.pivot hrow (mem_column_of_exit? hexit).2 hmem).removeRow hremove
  · rw [hcolumn]
    exact h.removeColumn marker

theorem Split.spares_deleteMarker
    (h : t.Split S)
    (hconsistent : t.Consistent)
    (hobjective : marker.isObjective = false)
    (hmarker : S marker) :
    Spares S t (t.deleteMarker marker) := by
  rcases hconsistent.deleteMarker_cases marker with
    ⟨row, hremove⟩ | ⟨leaving, row, solved, hexit, hrow, hmem, hremove⟩ | ⟨_, _, hcolumn⟩
  · exact spares_removeRow_of_mem hremove hobjective hmarker
  · exact (h.spares_pivot hrow (mem_column_of_exit? hexit).2 hmem hmarker hobjective).trans
      (spares_removeRow_of_mem hremove hobjective hmarker)
  · rw [hcolumn]
    exact h.spares_removeColumn hmarker

theorem Split.retract
    (h : t.Split S)
    (hconsistent : t.Consistent)
    (markers : Markers)
    (weight : K) :
    (t.retract markers weight).Split S :=
  retract_induction (fun _ error h _ _ => h.removeColumn error)
    ((h.chargeAll markers (-weight)).deleteMarker (hconsistent.chargeAll markers (-weight))
      markers.marker)

theorem Split.spares_retract
    (h : t.Split S)
    (hconsistent : t.Consistent)
    (hproper : markers.Proper)
    (hmarkers : ∀ x ∈ markers.symbols, S x)
    (weight : K) :
    Spares S t (t.retract markers weight) := by
  have herrors : ∀ x ∈ markers.errors, S x :=
    fun x hx => hmarkers x (Markers.mem_symbols_of_mem_errors hx)
  have hcharged := h.chargeAll markers (-weight)
  have hmarker := markers.marker_mem_symbols
  refine (retract_induction (P := fun u => u.Split S ∧ Spares S t u) ?_
    ⟨hcharged.deleteMarker (hconsistent.chargeAll markers (-weight)) markers.marker, ?_⟩).2
  · rintro u error ⟨hsplit, hspares⟩ he _
    exact ⟨hsplit.removeColumn error,
      hspares.trans (hsplit.spares_removeColumn (herrors error he))⟩
  · exact (h.spares_chargeAll hproper herrors (-weight)).trans
      (hcharged.spares_deleteMarker (hconsistent.chargeAll markers (-weight))
        (hproper.isObjective hmarker) (hmarkers _ hmarker))

end Leaving

end Tableau
end LinearLayout
