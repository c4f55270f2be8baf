import LinearLayout.Row

/-!
# The symbols of a changed row

Every change of a row is followed here through the set of symbols that it mentions.  Nothing is
assumed of the arithmetic: a cell may cancel or not, but only symbols of the operands can appear,
and a symbol that an operand does not mention keeps its place.
-/

namespace LinearLayout
namespace Row

variable {K : Type} {r other : Row K} {s i : Symbol} {k : K}

theorem mem_symbols_iff :
    s ∈ r.symbols ↔ ∃ c, r.cells.get? s = some c :=
  OrderedMap.mem_keys_iff

theorem not_mem_symbols_iff :
    s ∉ r.symbols ↔ r.cells.get? s = none :=
  OrderedMap.get?_eq_none_iff.symm

theorem mem_symbols_of_mem_entries
    {c : Symbol × K}
    (h : c ∈ r.cells.entries) :
    c.1 ∈ r.symbols :=
  List.mem_map.2 ⟨c, h, rfl⟩

@[simp] theorem mentions_eq_true :
    r.mentions s = true ↔ s ∈ r.symbols :=
  OrderedMap.contains_eq_true

@[simp] theorem symbols_ofConstant
    (x : K) :
    (ofConstant x).symbols = [] :=
  rfl

theorem symbols_eq_nil_of_isConstant
    (h : r.isConstant = true) :
    r.symbols = [] := by
  simpa [isConstant, OrderedMap.isEmpty, symbols, OrderedMap.keys] using h

theorem get?_without :
    (r.without s).cells.get? i = if i = s then none else r.cells.get? i :=
  OrderedMap.get?_erase _ _ _

@[simp] theorem mem_symbols_without :
    i ∈ (r.without s).symbols ↔ i ≠ s ∧ i ∈ r.symbols := by
  by_cases h : i = s <;> simp [mem_symbols_iff, get?_without, h]

theorem without_of_not_mem
    (h : s ∉ r.symbols) :
    r.without s = r := by
  unfold without
  rw [OrderedMap.erase_of_get?_eq_none (not_mem_symbols_iff.1 h)]

variable [Scalar K]

theorem mem_symbols_addTerm_of_ne
    (h : i ≠ s) :
    i ∈ (r.addTerm s k).symbols ↔ i ∈ r.symbols := by
  simp [mem_symbols_iff, get?_addTerm, h]

theorem get?_addTerms_of_not_mem
    {terms : List (Symbol × K)}
    (h : i ∉ terms.map Prod.fst) :
    (r.addTerms terms k).cells.get? i = r.cells.get? i := by
  induction terms generalizing r with
  | nil =>
      rfl
  | cons t terms ih =>
      rw [List.map_cons, List.mem_cons, not_or] at h
      exact (ih h.2).trans ((get?_addTerm _ _ _ _).trans (if_neg h.1))

/-- The cell of a symbol that is not added stays as it is. -/
theorem get?_addRow_of_not_mem
    (h : i ∉ other.symbols) :
    (r.addRow other k).cells.get? i = r.cells.get? i :=
  get?_addTerms_of_not_mem h

/-- A symbol of neither operand does not appear in a sum, and one of the first alone stays. -/
theorem mem_symbols_addRow_of_not_mem
    (h : i ∉ other.symbols) :
    i ∈ (r.addRow other k).symbols ↔ i ∈ r.symbols := by
  simp only [mem_symbols_iff, get?_addRow_of_not_mem h]

theorem mem_symbols_of_mem_addRow
    (h : i ∈ (r.addRow other k).symbols) :
    i ∈ r.symbols ∨ i ∈ other.symbols := by
  by_cases hi : i ∈ other.symbols
  · exact Or.inr hi
  · exact Or.inl ((mem_symbols_addRow_of_not_mem hi).1 h)

theorem mem_symbols_of_mem_addTerm
    (h : i ∈ (r.addTerm s k).symbols) :
    i ∈ r.symbols ∨ i = s := by
  by_cases hi : i = s
  · exact Or.inr hi
  · exact Or.inl ((mem_symbols_addTerm_of_ne hi).1 h)

theorem mem_symbols_addTerm_cases
    (h : i ∈ (r.addTerm s k).symbols) :
    i ∈ r.symbols ∨ i ∈ [s] :=
  (mem_symbols_of_mem_addTerm h).imp_right List.mem_singleton.2

theorem mem_symbols_addTerm_addTerm_cases
    {s' : Symbol} {k' : K}
    (h : i ∈ ((r.addTerm s k).addTerm s' k').symbols) :
    i ∈ r.symbols ∨ i ∈ [s, s'] := by
  rcases mem_symbols_of_mem_addTerm h with h | rfl
  · exact (mem_symbols_of_mem_addTerm h).imp_right fun hi => by simp [hi]
  · exact Or.inr (by simp)

theorem substitute_of_not_mem
    (h : s ∉ r.symbols) :
    r.substitute s other = r := by
  simp [substitute, not_mem_symbols_iff.1 h]

theorem get?_substitute_of_not_mem
    (h : i ∉ other.symbols) :
    (r.substitute s other).cells.get? i = if i = s then none else r.cells.get? i := by
  by_cases hs : s ∈ r.symbols
  · obtain ⟨c, hc⟩ := mem_symbols_iff.1 hs
    simp only [substitute, hc, get?_addRow_of_not_mem h, get?_without]
  · rw [substitute_of_not_mem hs]
    split
    · next his => rw [his, not_mem_symbols_iff.1 hs]
    · rfl

theorem mem_symbols_substitute_of_not_mem
    (h : i ∉ other.symbols) :
    i ∈ (r.substitute s other).symbols ↔ i ≠ s ∧ i ∈ r.symbols := by
  rw [← mem_symbols_without, mem_symbols_iff, mem_symbols_iff, get?_substitute_of_not_mem h,
    get?_without]

theorem mem_symbols_of_mem_substitute
    (h : i ∈ (r.substitute s other).symbols) :
    (i ≠ s ∧ i ∈ r.symbols) ∨ (s ∈ r.symbols ∧ i ∈ other.symbols) := by
  by_cases hi : i ∈ other.symbols
  · by_cases hs : s ∈ r.symbols
    · exact Or.inr ⟨hs, hi⟩
    · rw [substitute_of_not_mem hs] at h
      exact Or.inl ⟨fun his => hs (his ▸ h), h⟩
  · exact Or.inl ((mem_symbols_substitute_of_not_mem hi).1 h)

@[simp] theorem mem_symbols_solveFor :
    i ∈ (r.solveFor s).symbols ↔ i ≠ s ∧ i ∈ r.symbols := by
  simp [solveFor]

@[simp] theorem mem_symbols_exchange
    {leaving entering : Symbol} :
    i ∈ (r.exchange leaving entering).symbols ↔
      i = leaving ∨ (i ≠ entering ∧ i ∈ r.symbols) := by
  have hget :
      (r.exchange leaving entering).cells.get? i =
        if i = leaving then some (r.reciprocal entering)
        else (r.solveFor entering).cells.get? i :=
    OrderedMap.get?_insert _ _ _ _
  rw [mem_symbols_iff, hget]
  split
  · next h => simp [h]
  · next h => simp [h, ← mem_symbols_iff]

end Row
end LinearLayout
