import Mathlib.Data.List.Basic
import LinearLayout.Proofs.Tableau.Index

/-!
# An index kept by reports

Edits of a tableau bring its columns in line with the rows by looking at the rows again.  That is
more than is needed: adding to a cell can report whether the cell came or went, the column of its
symbol can be changed at that moment, and the rows that mention a symbol can be found in its
column.  An index that is kept in this way is never checked against the rows, and one missed
report would stay unnoticed.

Here the edits are described in this way, and in a consistent tableau they turn out to do the
same.  Nothing is assumed of the arithmetic.
-/

namespace LinearLayout

variable {K : Type}

section Reporting

/-- What became of a cell. -/
inductive Report where
  | entered
  | left
deriving DecidableEq, Repr

/-- What is reported when a multiple of a symbol is added; a cell that only changes is silent. -/
def Row.report? [Scalar K] (r : Row K) (s : Symbol) (k : K) : Option Report :=
  match r.cells.get? s with
  | none => if Scalar.isNegligible k then none else some .entered
  | some c => if Scalar.isNegligible (c + k) then some .left else none

/-- Changes the column of a symbol as the row of `basic` has reported. -/
def Columns.note (basic s : Symbol) (c : Columns) : Option Report → Columns
  | none => c
  | some .entered => c.link s basic
  | some .left => c.unlink s basic

variable [Scalar K]

/-- Adds a multiple of a symbol to the row of `basic` and notes what it reports. -/
def Row.addTermNoting (basic : Symbol) (acc : Row K × Columns) (term : Symbol × K) :
    Row K × Columns :=
  (acc.1.addTerm term.1 term.2, acc.2.note basic term.1 (acc.1.report? term.1 term.2))

/-- Adds a multiple of another row to the row of `basic`, noting what every cell reports. -/
def Row.addRowNoting (basic : Symbol) (acc : Row K × Columns) (other : Row K) (k : K) :
    Row K × Columns :=
  other.cells.entries.foldl (fun acc t => Row.addTermNoting basic acc (t.1, t.2 * k))
    ({ acc.1 with constant := acc.1.constant + k * other.constant }, acc.2)

/-- Puts a row in place of a symbol.  That the symbol itself goes is not reported. -/
def Row.substituteNoting (basic : Symbol) (acc : Row K × Columns) (s : Symbol)
    (replacement : Row K) : Row K × Columns :=
  match acc.1.cells.get? s with
  | none => acc
  | some k => Row.addRowNoting basic (acc.1.without s, acc.2) replacement k

namespace Tableau

/-- Changes the row of `basic` together with the columns, if there is such a row. -/
def edit (t : Tableau K) (basic : Symbol) (f : Row K × Columns → Row K × Columns) : Tableau K :=
  match t.row? basic with
  | none => t
  | some row => ⟨t.rows.insert basic (f (row, t.columns)).1, (f (row, t.columns)).2⟩

/-- Puts a row in place of a symbol in the rows that the column of the symbol lists. -/
def substituteListed (t : Tableau K) (s : Symbol) (replacement : Row K) : Tableau K :=
  (t.column s).foldl
    (fun u basic => u.edit basic fun acc => Row.substituteNoting basic acc s replacement)
    ⟨t.rows, t.columns.erase s⟩

omit [Scalar K] in
/-- Drops a symbol from the rows that its column lists. -/
def removeListed (t : Tableau K) (s : Symbol) : Tableau K where
  rows := (t.column s).foldl (fun rows basic => rows.modify basic fun row => row.without s) t.rows
  columns := t.columns.erase s

omit [Scalar K] in
/-- Adds the row of a symbol that was not basic and lists it under all its symbols. -/
def addRowListing (t : Tableau K) (basic : Symbol) (row : Row K) : Tableau K where
  rows := t.rows.insert basic row
  columns := row.symbols.foldl (fun c s => c.link s basic) t.columns

/-- Makes `entering` basic in the row of `leaving`, keeping the index by reports. -/
def pivotListed (t : Tableau K) (entering leaving : Symbol) : Tableau K :=
  match t.removeRow leaving with
  | none => t
  | some (row, rest) =>
    let solved := row.exchange leaving entering
    (rest.substituteListed entering solved).addRowListing entering solved

end Tableau

end Reporting

namespace Columns

variable {c d : Columns} {basic s i b : Symbol} {row row' r : Row K}

/-- The same columns, however they are stored. -/
def Alike (c d : Columns) : Prop :=
  ∀ s, c.column s = d.column s

/-- The columns list the row of `basic` under exactly the symbols that it mentions. -/
def Reflects (c : Columns) (basic : Symbol) (row : Row K) : Prop :=
  ∀ s, basic ∈ (c.column s).toList ↔ s ∈ row.symbols

theorem column_align :
    (align basic row c s).column i =
      if s = i then
        if row.mentions s then (c.column s).insert basic else (c.column s).erase basic
      else c.column i := by
  unfold align
  split
  · rw [column_link]
  · rw [column_unlink]

theorem align_congr
    (h : row.mentions s = row'.mentions s) :
    align basic row c s = align basic row' c s := by
  rw [align, align, h]

theorem Alike.foldl_align
    (h : Alike c d)
    (touched : List Symbol) :
    Alike (touched.foldl (align basic row) c) (touched.foldl (align basic row) d) := by
  induction touched generalizing c d with
  | nil =>
      exact h
  | cons s touched ih =>
      refine ih fun i => ?_
      rw [column_align, column_align, h s, h i]

variable [Scalar K] {k : K}

/-- What a row reports is what looking at it again would show. -/
theorem alike_note
    (h : basic ∈ (c.column s).toList ↔ s ∈ r.symbols) :
    Alike (c.note basic s (r.report? s k)) (align basic (r.addTerm s k) c s) := by
  have hcell : (r.addTerm s k).cells.get? s = Row.accumulate k (r.cells.get? s) :=
    (Row.get?_addTerm r s s k).trans (if_pos rfl)
  have hmentions : (r.addTerm s k).mentions s = (Row.accumulate k (r.cells.get? s)).isSome := by
    rw [Row.mentions, OrderedMap.contains, hcell]
  intro i
  rw [column_align, hmentions]
  unfold Row.report? Row.accumulate Row.prune
  cases hs : r.cells.get? s with
  | none =>
      have hoff : basic ∉ (c.column s).toList := fun hmem => Row.not_mem_symbols_iff.2 hs (h.1 hmem)
      cases hk : Scalar.isNegligible k with
      | true =>
          simp only [if_true, note, Option.isSome_none, Bool.false_eq_true, if_false]
          split
          · next hsi => rw [← hsi, OrderedSet.erase_of_not_mem hoff]
          · rfl
      | false =>
          simp only [Bool.false_eq_true, if_false, note, Option.isSome_some, if_true]
          exact column_link
  | some a =>
      have hon : basic ∈ (c.column s).toList := h.2 (Row.mem_symbols_iff.2 ⟨a, hs⟩)
      cases hk : Scalar.isNegligible (a + k) with
      | true =>
          simp only [hk, if_true, note, Option.isSome_none, Bool.false_eq_true, if_false]
          exact column_unlink
      | false =>
          simp only [hk, Bool.false_eq_true, if_false, note, Option.isSome_some, if_true]
          split
          · next hsi => rw [← hsi, OrderedSet.insert_of_mem hon]
          · rfl

omit [Scalar K] in
theorem Reflects.align
    (h : Reflects c basic r)
    (hsame : ∀ i, i ≠ s → (i ∈ row.symbols ↔ i ∈ r.symbols)) :
    Reflects (align basic row c s) basic row := by
  intro i
  rw [mem_column_align]
  split
  · next hi => rw [hi.1]
  · next hi => rw [h i, hsame i fun his => hi ⟨his, rfl⟩]

end Columns

namespace Row

variable [Scalar K] {c : Columns} {basic : Symbol} {r other replacement : Row K} {k : K}

/-- Adding terms and noting each report is adding them and bringing their columns in line. -/
theorem foldl_addTermNoting_spec
    {terms : List (Symbol × K)}
    (hnodup : (terms.map Prod.fst).Nodup)
    (h : c.Reflects basic r) :
    let p := terms.foldl (fun acc t => addTermNoting basic acc (t.1, t.2 * k)) (r, c)
    p.1 = r.addTerms terms k ∧
      p.2.Alike ((terms.map Prod.fst).foldl (Columns.align basic (r.addTerms terms k)) c) := by
  induction terms generalizing r c with
  | nil =>
      exact ⟨rfl, fun _ => rfl⟩
  | cons t terms ih =>
      rw [List.map_cons, List.nodup_cons] at hnodup
      have hnote := Columns.alike_note (k := t.2 * k) (h t.1)
      have hreflects : (c.note basic t.1 (r.report? t.1 (t.2 * k))).Reflects basic
          (r.addTerm t.1 (t.2 * k)) := by
        intro s
        rw [hnote s]
        exact h.align (fun i hi => mem_symbols_addTerm_of_ne hi) s
      obtain ⟨hrow, hcolumns⟩ := ih hnodup.2 hreflects
      refine ⟨hrow, fun s => (hcolumns s).trans ?_⟩
      have hlast : (r.addTerms (t :: terms) k).mentions t.1 =
          (r.addTerm t.1 (t.2 * k)).mentions t.1 := by
        rw [mentions, mentions, OrderedMap.contains, OrderedMap.contains]
        exact congrArg Option.isSome (get?_addTerms_of_not_mem hnodup.1)
      rw [List.map_cons, List.foldl_cons, Columns.align_congr hlast]
      exact Columns.Alike.foldl_align hnote _ s

theorem addRowNoting_spec
    (h : c.Reflects basic r)
    (other : Row K) (k : K) :
    (addRowNoting basic (r, c) other k).1 = r.addRow other k ∧
      (addRowNoting basic (r, c) other k).2.Alike
        (other.symbols.foldl (Columns.align basic (r.addRow other k)) c) :=
  foldl_addTermNoting_spec other.cells.nodup_keys h

/-- The cell that is replaced must have left the column before. -/
theorem substituteNoting_spec
    {s : Symbol}
    (hs : s ∈ r.symbols)
    (h : c.Reflects basic (r.without s))
    (replacement : Row K) :
    (substituteNoting basic (r, c) s replacement).1 = r.substitute s replacement ∧
      (substituteNoting basic (r, c) s replacement).2.Alike
        (replacement.symbols.foldl (Columns.align basic (r.substitute s replacement)) c) := by
  obtain ⟨k, hk⟩ := mem_symbols_iff.1 hs
  simp only [substituteNoting, substitute, hk]
  exact addRowNoting_spec h replacement k

end Row

namespace Tableau

variable {t u : Tableau K} {s basic : Symbol} {row replacement other : Row K}

/-- The same rows and the same columns, however the columns are stored. -/
def Same (t u : Tableau K) : Prop :=
  t.rows = u.rows ∧ t.columns.Alike u.columns

theorem Same.refl
    (t : Tableau K) :
    t.Same t :=
  ⟨rfl, fun _ => rfl⟩

/-- A row is always listed under its own symbols. -/
theorem addRowListing_eq
    (t : Tableau K) (basic : Symbol) (row : Row K) :
    t.addRowListing basic row = t.addRow basic row := by
  have hcolumns : (t.addRowListing basic row).columns = (t.addRow basic row).columns := by
    refine List.foldl_ext _ _ _ fun c s hs => ?_
    rw [Columns.align, if_pos (Row.mentions_eq_true.2 hs)]
  exact congrArg (Tableau.mk (t.rows.insert basic row)) hcolumns

theorem Same.addRow
    (h : t.Same u)
    (basic : Symbol) (row : Row K) :
    (t.addRow basic row).Same (u.addRow basic row) :=
  ⟨congrArg (OrderedMap.insert · basic row) h.1, h.2.foldl_align _⟩

theorem Consistent.reflects
    (h : t.Consistent)
    (hrow : t.row? basic = some row) :
    t.columns.Reflects basic row := by
  intro s
  change basic ∈ t.column s ↔ _
  rw [h.mem_column_iff]
  simp [hrow]

/-- What leaves rows without a symbol alone does nothing to a row that is not listed under it. -/
theorem Consistent.map_row?_of_not_listed
    {f : Row K → Row K}
    (h : t.Consistent)
    (hb : basic ∉ t.column s)
    (hf : ∀ r : Row K, s ∉ r.symbols → f r = r) :
    t.row? basic = (t.row? basic).map f := by
  cases hr : t.row? basic with
  | none =>
      rfl
  | some r =>
      have hunmentioned : s ∉ r.symbols :=
        fun hmem => hb ((h.mem_column_iff s basic).2 ⟨r, hr, hmem⟩)
      rw [Option.map_some, hf r hunmentioned]

/-- Where the index is right, the rows that are not listed have nothing to drop. -/
theorem Consistent.removeListed
    (h : t.Consistent)
    (s : Symbol) :
    t.removeListed s = t.removeColumn s := by
  have hkeys : (t.removeListed s).rows.keys = (t.removeColumn s).rows.keys :=
    (OrderedMap.keys_foldl_modify _ _).trans (OrderedMap.keys_mapValues _).symm
  have hrows : (t.removeListed s).rows = (t.removeColumn s).rows := by
    refine OrderedMap.ext_of_get? hkeys fun b => ?_
    refine (OrderedMap.get?_foldl_modify _ (Columns.column t.columns s).nodup _).trans ?_
    change _ = (t.removeColumn s).row? b
    rw [row?_removeColumn]
    split
    · rfl
    · next hb => exact h.map_row?_of_not_listed hb fun r hs => Row.without_of_not_mem hs
  exact congrArg (Tableau.mk · (t.columns.erase s)) hrows

theorem edit_of_row?
    {f : Row K × Columns → Row K × Columns}
    (h : t.row? basic = some row) :
    t.edit basic f = ⟨t.rows.insert basic (f (row, t.columns)).1, (f (row, t.columns)).2⟩ := by
  simp only [edit, h]

variable [Scalar K] {k : K}

/--
A substitution on its way through the listed rows.  The rows on the list are as they were, except
that they are no longer listed under the symbol; all others are as they will be.
-/
structure Midway (t : Tableau K) (s : Symbol) (replacement : Row K) (l : List Symbol)
    (u : Tableau K) (c : Columns) : Prop where
  keys : u.rows.keys = t.rows.keys
  todo : ∀ b ∈ l, u.row? b = t.row? b
  done : ∀ b, b ∉ l → u.row? b = (t.row? b).map fun r => r.substitute s replacement
  columns : u.columns.Alike c
  reflects : ∀ b ∈ l, ∀ r, t.row? b = some r → u.columns.Reflects b (r.without s)

theorem Midway.step
    {l : List Symbol} {b : Symbol} {r : Row K} {c : Columns}
    (h : t.Midway s replacement (b :: l) u c)
    (hb : b ∉ l)
    (hr : t.row? b = some r)
    (hs : s ∈ r.symbols) :
    t.Midway s replacement l (u.edit b fun acc => Row.substituteNoting b acc s replacement)
      (Columns.alignStored (t.rows.mapValues fun r => r.substitute s replacement)
        replacement.symbols c b) := by
  have hu : u.row? b = some r := (h.todo b List.mem_cons_self).trans hr
  obtain ⟨hrow, hnoted⟩ := Row.substituteNoting_spec hs
    (h.reflects b List.mem_cons_self r hr) replacement
  have hrows : ∀ i, (u.edit b fun acc => Row.substituteNoting b acc s replacement).row? i =
      if i = b then some (r.substitute s replacement) else u.row? i := by
    intro i
    rw [edit_of_row? hu, ← hrow]
    exact OrderedMap.get?_insert _ _ _ _
  have hstored : (t.rows.mapValues fun r => r.substitute s replacement).get? b =
      some (r.substitute s replacement) := by
    rw [OrderedMap.get?_mapValues, show t.rows.get? b = some r from hr]
    rfl
  refine ⟨?_, fun i hi => ?_, fun i hi => ?_, fun i => ?_, fun i hi q hq x => ?_⟩
  · rw [edit_of_row? hu, OrderedMap.keys_insert_of_mem _ (OrderedMap.mem_keys_iff.2 ⟨r, hu⟩),
      h.keys]
  · have hib : i ≠ b := fun hib => hb (hib ▸ hi)
    rw [hrows, if_neg hib, h.todo i (List.mem_cons_of_mem _ hi)]
  · rw [hrows]
    split
    · next hib => rw [hib, hr, Option.map_some]
    · next hib => exact h.done i (by simp [hib, hi])
  · simp only [edit_of_row? hu, Columns.alignStored, hstored]
    exact (hnoted i).trans (h.columns.foldl_align _ i)
  · have hib : i ≠ b := fun hib => hb (hib ▸ hi)
    rw [edit_of_row? hu, hnoted x, Columns.mem_column_foldl_align, if_neg fun hx => hib hx.2]
    exact h.reflects i (List.mem_cons_of_mem _ hi) q hq x

theorem Midway.run
    {l : List Symbol} {c : Columns}
    (h : t.Midway s replacement l u c)
    (ht : t.Consistent)
    (hnodup : l.Nodup)
    (hlisted : ∀ b ∈ l, b ∈ t.column s) :
    (l.foldl (fun u b => u.edit b fun acc => Row.substituteNoting b acc s replacement) u).Same
      ⟨t.rows.mapValues fun r => r.substitute s replacement,
        l.foldl (Columns.alignStored (t.rows.mapValues fun r => r.substitute s replacement)
          replacement.symbols) c⟩ := by
  induction l generalizing u c with
  | nil =>
      refine ⟨OrderedMap.ext_of_get? ?_ fun b => ?_, h.columns⟩
      · rw [OrderedMap.keys_mapValues]
        exact h.keys
      · rw [OrderedMap.get?_mapValues]
        exact h.done b List.not_mem_nil
  | cons b l ih =>
      rw [List.nodup_cons] at hnodup
      obtain ⟨r, hr, hs⟩ := (ht.mem_column_iff s b).1 (hlisted b List.mem_cons_self)
      exact ih (h.step hnodup.1 hr hs) hnodup.2 fun i hi => hlisted i (List.mem_cons_of_mem _ hi)

/-- Where the index is right, substituting in the listed rows is substituting everywhere. -/
theorem Consistent.substituteListed
    (h : t.Consistent)
    (s : Symbol)
    (replacement : Row K) :
    (t.substituteListed s replacement).Same (t.substitute s replacement) := by
  refine Midway.run ⟨rfl, fun _ _ => rfl, fun b hb => ?_, fun _ => rfl, fun b _ r hr i => ?_⟩ h
    (Columns.column t.columns s).nodup fun _ hb => hb
  · exact h.map_row?_of_not_listed hb fun r hs => Row.substitute_of_not_mem hs
  · rw [Columns.mem_column_erase, Row.mem_symbols_without]
    exact and_congr_right fun _ => h.reflects hr i

/-- Where the index is right, a pivot needs to look at the listed rows alone. -/
theorem Consistent.pivotListed
    (h : t.Consistent)
    (entering leaving : Symbol) :
    (t.pivotListed entering leaving).Same (t.pivot entering leaving) := by
  unfold Tableau.pivotListed Tableau.pivot
  cases hremove : t.removeRow leaving with
  | none =>
      exact Same.refl t
  | some p =>
      simp only [addRowListing_eq]
      exact ((h.removeRow hremove).substituteListed entering _).addRow entering _

theorem Consistent.addTermTo_same
    (h : t.Consistent)
    (basic s : Symbol) (k : K) :
    (t.edit basic fun acc => Row.addTermNoting basic acc (s, k)).Same (t.addTermTo basic s k) := by
  cases hrow : t.row? basic with
  | none =>
      simp only [edit, Tableau.addTermTo, hrow]
      exact Same.refl t
  | some row =>
      rw [edit_of_row? hrow]
      simp only [Tableau.addTermTo, hrow]
      exact ⟨rfl, Columns.alike_note (h.reflects hrow s)⟩

theorem Consistent.addRowTo_same
    (h : t.Consistent)
    (basic : Symbol) (other : Row K) (k : K) :
    (t.edit basic fun acc => Row.addRowNoting basic acc other k).Same
      (t.addRowTo basic other k) := by
  cases hrow : t.row? basic with
  | none =>
      simp only [edit, Tableau.addRowTo, hrow]
      exact Same.refl t
  | some row =>
      obtain ⟨hrow', hnoted⟩ := Row.addRowNoting_spec (h.reflects hrow) other k
      rw [edit_of_row? hrow]
      simp only [Tableau.addRowTo, hrow]
      exact ⟨congrArg (t.rows.insert basic) hrow', hnoted⟩

/-- Whatever is done to the tableau, doing it by reports alone comes to the same. -/
structure Reported (t : Tableau K) : Prop where
  addTermTo : ∀ basic s k,
    (t.edit basic fun acc => Row.addTermNoting basic acc (s, k)).Same (t.addTermTo basic s k)
  addRowTo : ∀ basic other k,
    (t.edit basic fun acc => Row.addRowNoting basic acc other k).Same (t.addRowTo basic other k)
  addRow : ∀ basic row, t.addRowListing basic row = t.addRow basic row
  removeColumn : ∀ s, t.removeListed s = t.removeColumn s
  substitute : ∀ s replacement,
    (t.substituteListed s replacement).Same (t.substitute s replacement)
  pivot : ∀ entering leaving, (t.pivotListed entering leaving).Same (t.pivot entering leaving)

/-- No report is missed where the index is right. -/
theorem Consistent.reported
    (h : t.Consistent) :
    t.Reported where
  addTermTo := h.addTermTo_same
  addRowTo := h.addRowTo_same
  addRow := t.addRowListing_eq
  removeColumn := h.removeListed
  substitute := h.substituteListed
  pivot := h.pivotListed

end Tableau

end LinearLayout
