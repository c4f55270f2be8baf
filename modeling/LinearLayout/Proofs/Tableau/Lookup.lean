import LinearLayout.Tableau
import LinearLayout.Proofs.Row.Symbols

/-!
# Rows and columns of a changed tableau

Each change of a tableau is described twice: by the rows that can be looked up afterwards, and by
the members of its columns.
-/

namespace LinearLayout

namespace Columns

variable {K : Type} {c : Columns} {s i b basic : Symbol} {row : Row K}

theorem order_eq_iff :
    s.order i = .eq ↔ s = i :=
  Std.LawfulEqCmp.compare_eq_iff_eq

theorem column_link :
    (c.link s basic).column i = if s = i then (c.column s).insert basic else c.column i := by
  simp [link, column, Std.TreeMap.getD_insert]

theorem column_unlink :
    (c.unlink s basic).column i = if s = i then (c.column s).erase basic else c.column i := by
  have hempty : (∅ : OrderedSet Symbol).erase basic = ∅ := rfl
  simp only [unlink, column, Std.TreeMap.getD_modify, order_eq_iff]
  split
  · rw [Std.TreeMap.getD_eq_getD_getElem?]
    cases (c)[s]? <;> simp [hempty]
  · rfl

theorem mem_column_link :
    b ∈ ((c.link s basic).column i).toList ↔
      b ∈ (c.column i).toList ∨ (i = s ∧ b = basic) := by
  rw [column_link]
  split
  · next h => simp [h]
  · next h => simp [Ne.symm h]

theorem mem_column_unlink :
    b ∈ ((c.unlink s basic).column i).toList ↔
      b ∈ (c.column i).toList ∧ ¬ (i = s ∧ b = basic) := by
  rw [column_unlink]
  split
  · next h => simp [h, and_comm]
  · next h => simp [Ne.symm h]

theorem mem_column_erase :
    b ∈ (column (c.erase s) i).toList ↔ i ≠ s ∧ b ∈ (c.column i).toList := by
  simp only [column, Std.TreeMap.getD_erase, order_eq_iff]
  split
  · next h => simp [h]
  · next h => simp [Ne.symm h]

theorem mem_column_align :
    b ∈ ((align basic row c s).column i).toList ↔
      if i = s ∧ b = basic then s ∈ row.symbols else b ∈ (c.column i).toList := by
  unfold align
  split
  · next h =>
      rw [Row.mentions_eq_true] at h
      rw [mem_column_link]
      split <;> simp_all
  · next h =>
      rw [Row.mentions_eq_true] at h
      rw [mem_column_unlink]
      split <;> simp_all

/-- Aligning columns with a row decides about that row alone, and in the listed columns alone. -/
theorem mem_column_foldl_align
    (touched : List Symbol) :
    b ∈ ((touched.foldl (align basic row) c).column i).toList ↔
      if i ∈ touched ∧ b = basic then i ∈ row.symbols else b ∈ (c.column i).toList := by
  induction touched generalizing c with
  | nil =>
      simp
  | cons s touched ih =>
      rw [List.foldl_cons, ih, mem_column_align]
      by_cases hb : b = basic
      · by_cases hi : i = s
        · by_cases ht : i ∈ touched <;> simp_all
        · simp [hb, hi]
      · simp [hb]

theorem mem_column_foldl_unlink
    (touched : List Symbol) :
    b ∈ ((touched.foldl (fun c s => unlink c s basic) c).column i).toList ↔
      b ∈ (c.column i).toList ∧ ¬ (i ∈ touched ∧ b = basic) := by
  induction touched generalizing c with
  | nil =>
      simp
  | cons s touched ih =>
      rw [List.foldl_cons, ih, mem_column_unlink, List.mem_cons, and_assoc, ← not_or, or_and_right]

theorem mem_column_alignStored
    {rows : OrderedMap Symbol (Row K)} {touched : List Symbol} :
    b ∈ ((alignStored rows touched c basic).column i).toList ↔
      if i ∈ touched ∧ b = basic ∧ basic ∈ rows.keys then
        ∃ r, rows.get? b = some r ∧ i ∈ r.symbols
      else b ∈ (c.column i).toList := by
  unfold alignStored
  split
  · next h =>
      have hkeys : basic ∉ rows.keys := OrderedMap.get?_eq_none_iff.1 h
      simp [hkeys]
  · next r h =>
      have hkeys : basic ∈ rows.keys := OrderedMap.mem_keys_iff.2 ⟨r, h⟩
      rw [mem_column_foldl_align]
      by_cases hb : b = basic
      · simp [hb, hkeys, h]
      · simp [hb]

theorem mem_column_foldl_alignStored
    {rows : OrderedMap Symbol (Row K)} {touched : List Symbol}
    (basics : List Symbol) :
    b ∈ ((basics.foldl (alignStored rows touched) c).column i).toList ↔
      if i ∈ touched ∧ b ∈ basics ∧ b ∈ rows.keys then
        ∃ r, rows.get? b = some r ∧ i ∈ r.symbols
      else b ∈ (c.column i).toList := by
  induction basics generalizing c with
  | nil =>
      simp
  | cons basic basics ih =>
      rw [List.foldl_cons, ih, mem_column_alignStored]
      by_cases hb : b = basic
      · by_cases hmem : b ∈ basics <;> simp_all
      · simp [hb]

end Columns

namespace Tableau

variable {K : Type} {t : Tableau K} {b i s : Symbol} {row : Row K}

section Rows

@[simp] theorem row?_empty :
    (∅ : Tableau K).row? i = none :=
  rfl

theorem ne_of_row?
    (hb : t.row? b = some row)
    (hs : t.row? s = none) :
    b ≠ s := by
  rintro rfl
  rw [hs] at hb
  cases hb

theorem row?_store
    (touched : List Symbol) :
    (t.store b row touched).row? i = if i = b then some row else t.row? i :=
  OrderedMap.get?_insert _ _ _ _

theorem row?_addRow :
    (t.addRow b row).row? i = if i = b then some row else t.row? i :=
  row?_store _

theorem removeRow_eq_none_iff :
    t.removeRow b = none ↔ t.row? b = none := by
  simp [removeRow]

/-- A removed row is handed out, and all other rows stay. -/
theorem row?_of_removeRow
    {t' : Tableau K}
    (h : t.removeRow b = some (row, t')) :
    t.row? b = some row ∧ ∀ i, t'.row? i = if i = b then none else t.row? i := by
  obtain ⟨r, hr, heq⟩ := Option.map_eq_some_iff.1 h
  cases heq
  exact ⟨hr, fun i => OrderedMap.get?_erase _ _ _⟩

theorem removeRow_of_row?
    (h : t.row? b = some row) :
    ∃ t', t.removeRow b = some (row, t') := by
  simp [removeRow, h]

theorem row?_removeColumn :
    (t.removeColumn s).row? i = (t.row? i).map fun r => r.without s :=
  OrderedMap.get?_mapValues _ _ _

variable [Scalar K]

theorem row?_substitute
    {replacement : Row K} :
    (t.substitute s replacement).row? i = (t.row? i).map fun r => r.substitute s replacement :=
  OrderedMap.get?_mapValues _ _ _

/-- A pivot solves the row of `leaving` for `entering` and puts it into all other rows. -/
theorem row?_pivot
    {entering leaving : Symbol}
    (h : t.row? leaving = some row) :
    (t.pivot entering leaving).row? i =
      if i = entering then some (row.exchange leaving entering)
      else if i = leaving then none
      else (t.row? i).map fun r => r.substitute entering (row.exchange leaving entering) := by
  obtain ⟨rest, hrest⟩ := removeRow_of_row? h
  simp only [pivot, hrest, row?_addRow, row?_substitute, (row?_of_removeRow hrest).2]
  split
  · rfl
  · split <;> rfl

theorem row?_addTermTo
    {k : K}
    (h : t.row? b = some row) :
    (t.addTermTo b s k).row? i = if i = b then some (row.addTerm s k) else t.row? i := by
  simp only [addTermTo, h, row?_store]

theorem row?_addRowTo
    {other : Row K} {k : K}
    (h : t.row? b = some row) :
    (t.addRowTo b other k).row? i = if i = b then some (row.addRow other k) else t.row? i := by
  simp only [addRowTo, h, row?_store]

end Rows

section Columns

theorem mem_column_store
    (touched : List Symbol) :
    i ∈ (t.store b row touched).column s ↔
      if s ∈ touched ∧ i = b then s ∈ row.symbols else i ∈ t.column s :=
  Columns.mem_column_foldl_align touched

theorem mem_column_addRow :
    i ∈ (t.addRow b row).column s ↔ (s ∈ row.symbols ∧ i = b) ∨ i ∈ t.column s := by
  rw [addRow, mem_column_store]
  split <;> simp_all

theorem mem_column_of_removeRow
    {t' : Tableau K}
    (h : t.removeRow b = some (row, t')) :
    i ∈ t'.column s ↔ i ∈ t.column s ∧ ¬ (s ∈ row.symbols ∧ i = b) := by
  obtain ⟨r, _, heq⟩ := Option.map_eq_some_iff.1 h
  cases heq
  exact Columns.mem_column_foldl_unlink row.symbols

theorem mem_column_removeColumn
    {x : Symbol} :
    i ∈ (t.removeColumn x).column s ↔ s ≠ x ∧ i ∈ t.column s :=
  Columns.mem_column_erase

theorem isReferenced_eq_true :
    t.isReferenced s = true ↔ ∃ b, b ∈ t.column s := by
  simp [isReferenced, List.eq_nil_iff_forall_not_mem]

variable [Scalar K]

theorem mem_column_substitute
    {x : Symbol} {replacement : Row K} :
    i ∈ (t.substitute x replacement).column s ↔
      if s ∈ replacement.symbols ∧ i ∈ t.column x ∧ (t.row? i).isSome then
        ∃ r, (t.substitute x replacement).row? i = some r ∧ s ∈ r.symbols
      else s ≠ x ∧ i ∈ t.column s := by
  have hkeys :
      i ∈ (t.rows.mapValues fun row => row.substitute x replacement).keys ↔
        (t.row? i).isSome = true := by
    rw [OrderedMap.keys_mapValues, OrderedMap.mem_keys_iff, Option.isSome_iff_exists]
    rfl
  refine (Columns.mem_column_foldl_alignStored (t.column x)).trans ?_
  simp only [hkeys, Columns.mem_column_erase]
  rfl

end Columns

end Tableau
end LinearLayout
