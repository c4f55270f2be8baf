import LinearLayout.OrderedMap.Basic

/-!
# Laws of ordered maps

Each change is described twice: through look-up, and through the list of keys, which carries the
insertion order.
-/

namespace LinearLayout
namespace OrderedMap

universe u v

variable {κ : Type u} {α : Type v} [DecidableEq κ]

section Find

theorem find_eq_none_iff
    {k : κ} {l : List (κ × α)} :
    find k l = none ↔ k ∉ l.map Prod.fst := by
  induction l with
  | nil =>
      simp [find]
  | cons e l ih =>
      by_cases h : e.1 = k
      · simp [find, h]
      · simp only [find, h, if_false, ih, List.map_cons, List.mem_cons]
        exact ⟨fun hn hk => hk.elim (fun hk => h hk.symm) hn, fun hn hk => hn (Or.inr hk)⟩

theorem mem_of_find_eq_some
    {k : κ} {a : α} {l : List (κ × α)}
    (h : find k l = some a) :
    (k, a) ∈ l := by
  induction l with
  | nil =>
      simp [find] at h
  | cons e l ih =>
      obtain ⟨j, b⟩ := e
      by_cases hjk : j = k
      · simp_all [find]
      · simp only [find, hjk, if_false] at h
        exact List.mem_cons_of_mem _ (ih h)

theorem find_eq_some_of_mem
    {k : κ} {a : α} {l : List (κ × α)}
    (hl : (l.map Prod.fst).Nodup)
    (h : (k, a) ∈ l) :
    find k l = some a := by
  induction l with
  | nil =>
      simp at h
  | cons e l ih =>
      obtain ⟨j, b⟩ := e
      rw [List.map_cons, List.nodup_cons] at hl
      rcases List.mem_cons.1 h with h | h
      · simp_all [find]
      · have hjk : j ≠ k := fun hjk => hl.1 (hjk ▸ List.mem_map.2 ⟨(k, a), h, rfl⟩)
        simp only [find, hjk, if_false]
        exact ih hl.2 h

theorem find_alterEntries_self
    (k : κ) (f : Option α → Option α) {l : List (κ × α)}
    (hl : (l.map Prod.fst).Nodup) :
    find k (alterEntries k f l) = f (find k l) := by
  induction l with
  | nil =>
      cases hf : f none <;> simp [alterEntries, find, hf]
  | cons e l ih =>
      obtain ⟨j, a⟩ := e
      rw [List.map_cons, List.nodup_cons] at hl
      by_cases hjk : j = k
      · have hk : find k l = none := find_eq_none_iff.2 (hjk ▸ hl.1)
        cases hf : f (some a) <;> simp [alterEntries, find, hjk, hf, hk]
      · simp only [alterEntries, find, hjk, if_false]
        exact ih hl.2

theorem find_alterEntries_of_ne
    {k i : κ} (f : Option α → Option α) (l : List (κ × α))
    (hik : i ≠ k) :
    find i (alterEntries k f l) = find i l := by
  induction l with
  | nil =>
      cases hf : f none <;> simp [alterEntries, find, hf, hik.symm]
  | cons e l ih =>
      obtain ⟨j, a⟩ := e
      by_cases hjk : j = k
      · cases hf : f (some a) <;> simp [alterEntries, find, hjk, hf, hik.symm]
      · simp only [alterEntries, find, hjk, if_false, ih]

theorem keys_alterEntries_of_find
    {k : κ} {a b : α} {f : Option α → Option α} {l : List (κ × α)}
    (ha : find k l = some a)
    (hb : f (some a) = some b) :
    (alterEntries k f l).map Prod.fst = l.map Prod.fst := by
  induction l with
  | nil =>
      simp [find] at ha
  | cons e l ih =>
      obtain ⟨j, c⟩ := e
      by_cases hjk : j = k
      · simp_all [find, alterEntries]
      · simp only [find, hjk, if_false] at ha
        simp [alterEntries, hjk, ih ha]

theorem alterEntries_of_find_eq_none
    {k : κ} {f : Option α → Option α} {l : List (κ × α)}
    (hk : find k l = none) :
    alterEntries k f l = l ++ ((f none).map fun b => (k, b)).toList := by
  induction l with
  | nil =>
      cases hf : f none <;> simp [alterEntries, hf]
  | cons e l ih =>
      obtain ⟨j, c⟩ := e
      by_cases hjk : j = k
      · simp [find, hjk] at hk
      · simp only [find, hjk, if_false] at hk
        simp [alterEntries, hjk, ih hk]

theorem keys_alterEntries_erase
    {k : κ} {f : Option α → Option α} {l : List (κ × α)}
    (hf : ∀ o, f o = none) :
    (alterEntries k f l).map Prod.fst = (l.map Prod.fst).erase k := by
  induction l with
  | nil =>
      simp [alterEntries, hf]
  | cons e l ih =>
      obtain ⟨j, c⟩ := e
      by_cases hjk : j = k
      · simp [alterEntries, hjk, hf]
      · simp [alterEntries, hjk, ih]

end Find

section Lookup

variable (m : OrderedMap κ α) (k i : κ)

@[simp] theorem get?_empty :
    (∅ : OrderedMap κ α).get? k = none :=
  rfl

@[simp] theorem get?_alter_self
    (f : Option α → Option α) :
    (m.alter k f).get? k = f (m.get? k) :=
  find_alterEntries_self k f m.nodup_keys

theorem get?_alter_of_ne
    (f : Option α → Option α) {k i : κ}
    (h : i ≠ k) :
    (m.alter k f).get? i = m.get? i :=
  find_alterEntries_of_ne f m.entries h

theorem get?_alter
    (f : Option α → Option α) :
    (m.alter k f).get? i = if i = k then f (m.get? k) else m.get? i := by
  split
  · next h => rw [h, get?_alter_self]
  · next h => rw [get?_alter_of_ne m f h]

theorem get?_insert
    (a : α) :
    (m.insert k a).get? i = if i = k then some a else m.get? i :=
  get?_alter m k i _

theorem get?_erase :
    (m.erase k).get? i = if i = k then none else m.get? i :=
  get?_alter m k i _

theorem get?_modify
    (f : α → α) :
    (m.modify k f).get? i = if i = k then (m.get? k).map f else m.get? i :=
  get?_alter m k i _

theorem get?_mapValues
    (f : α → α) :
    (m.mapValues f).get? k = (m.get? k).map f := by
  obtain ⟨l, hl⟩ := m
  simp only [get?, mapValues]
  clear hl
  induction l with
  | nil =>
      rfl
  | cons e l ih =>
      by_cases h : e.1 = k <;> simp [find, h, ih]

theorem get?_eq_some_iff
    {m : OrderedMap κ α} {k : κ} {a : α} :
    m.get? k = some a ↔ (k, a) ∈ m.entries :=
  ⟨mem_of_find_eq_some, find_eq_some_of_mem m.nodup_keys⟩

theorem get?_eq_none_iff
    {m : OrderedMap κ α} {k : κ} :
    m.get? k = none ↔ k ∉ m.keys :=
  find_eq_none_iff

theorem mem_keys_iff
    {m : OrderedMap κ α} {k : κ} :
    k ∈ m.keys ↔ ∃ a, m.get? k = some a := by
  rw [← Option.ne_none_iff_exists', Ne, get?_eq_none_iff, Classical.not_not]

@[simp] theorem contains_eq_true
    {m : OrderedMap κ α} {k : κ} :
    m.contains k = true ↔ k ∈ m.keys := by
  rw [contains, Option.isSome_iff_exists, mem_keys_iff]

theorem get?_filter
    (p : κ → α → Bool) :
    (m.filter p).get? k = (m.get? k).filter (p k) := by
  obtain ⟨l, hl⟩ := m
  simp only [get?, filter]
  induction l with
  | nil =>
      rfl
  | cons e l ih =>
      obtain ⟨j, a⟩ := e
      rw [List.map_cons, List.nodup_cons] at hl
      by_cases hjk : j = k
      · subst hjk
        have hj : find j (l.filter fun e => p e.1 e.2) = none := by
          rw [find_eq_none_iff]
          intro h
          obtain ⟨e, he, hej⟩ := List.mem_map.1 h
          exact hl.1 (List.mem_map.2 ⟨e, (List.mem_filter.1 he).1, hej⟩)
        by_cases hp : p j a = true <;> simp [hp, find, hj, Option.filter]
      · by_cases hp : p j a = true <;> simp [hp, find, hjk, ih hl.2]

end Lookup

section Keys

variable {m : OrderedMap κ α} {k : κ}

omit [DecidableEq κ] in
@[simp] theorem keys_empty :
    (∅ : OrderedMap κ α).keys = [] :=
  rfl

/-- Overwriting keeps the order of the keys. -/
theorem keys_insert_of_mem
    (a : α) (h : k ∈ m.keys) :
    (m.insert k a).keys = m.keys := by
  obtain ⟨b, hb⟩ := mem_keys_iff.1 h
  exact keys_alterEntries_of_find hb rfl

theorem entries_insert_of_get?_eq_none
    (a : α) (h : m.get? k = none) :
    (m.insert k a).entries = m.entries ++ [(k, a)] :=
  alterEntries_of_find_eq_none h

theorem values_insert_of_get?_eq_none
    (a : α) (h : m.get? k = none) :
    (m.insert k a).values = m.values ++ [a] := by
  rw [values, entries_insert_of_get?_eq_none a h, List.map_append]
  rfl

/-- A new key goes to the end. -/
theorem keys_insert_of_not_mem
    (a : α) (h : k ∉ m.keys) :
    (m.insert k a).keys = m.keys ++ [k] := by
  simp only [keys, insert, alter, alterEntries_of_find_eq_none (get?_eq_none_iff.2 h)]
  simp

/-- A map is given by the order of its keys and by what is found under them. -/
theorem ext_of_get?
    {m' : OrderedMap κ α}
    (hkeys : m.keys = m'.keys)
    (hget : ∀ k, m.get? k = m'.get? k) :
    m = m' := by
  have hentries : ∀ l l' : List (κ × α), (l.map Prod.fst).Nodup →
      l.map Prod.fst = l'.map Prod.fst → (∀ k, find k l = find k l') → l = l' := by
    intro l
    induction l with
    | nil =>
        intro l' _ hmap _
        exact (List.map_eq_nil_iff.1 hmap.symm).symm
    | cons e l ih =>
        intro l' hnodup hmap hfind
        obtain ⟨e', rest, rfl⟩ := List.exists_cons_of_ne_nil (l := l') fun hnil => by
          simp [hnil] at hmap
        rw [List.map_cons, List.nodup_cons] at hnodup
        rw [List.map_cons, List.map_cons, List.cons.injEq] at hmap
        obtain ⟨hkey, hmap⟩ := hmap
        have hvalue := hfind e.1
        rw [find, find, if_pos rfl, if_pos hkey.symm, Option.some.injEq] at hvalue
        rw [Prod.ext hkey hvalue, ih rest hnodup.2 hmap fun k => ?_]
        by_cases hk : e.1 = k
        · have hnone : find k l = none := find_eq_none_iff.2 (hk ▸ hnodup.1)
          rw [hnone, find_eq_none_iff.2 (hmap ▸ find_eq_none_iff.1 hnone)]
        · have hrest := hfind k
          rwa [find, find, if_neg hk, if_neg fun hk' => hk (hkey.trans hk')] at hrest
  exact OrderedMap.ext (hentries _ _ m.nodup_keys hkeys hget)

/-- Erasing closes the gap. -/
@[simp] theorem keys_erase :
    (m.erase k).keys = m.keys.erase k :=
  keys_alterEntries_erase fun _ => rfl

theorem erase_of_get?_eq_none
    (h : m.get? k = none) :
    m.erase k = m := by
  apply OrderedMap.ext
  exact (alterEntries_of_find_eq_none h).trans (by simp)

@[simp] theorem keys_modify
    (f : α → α) :
    (m.modify k f).keys = m.keys := by
  cases hk : m.get? k with
  | none =>
      simp only [keys, modify, alter,
        alterEntries_of_find_eq_none (show find k m.entries = none from hk)]
      simp
  | some a =>
      exact keys_alterEntries_of_find hk rfl

theorem keys_foldl_modify
    (f : α → α)
    (ks : List κ) :
    (ks.foldl (fun m k => m.modify k f) m).keys = m.keys := by
  induction ks generalizing m with
  | nil =>
      rfl
  | cons k ks ih =>
      exact ih.trans (keys_modify f)

/-- Changing the values of some keys in turn changes each of them once. -/
theorem get?_foldl_modify
    (f : α → α)
    {ks : List κ}
    (hnodup : ks.Nodup)
    (i : κ) :
    (ks.foldl (fun m k => m.modify k f) m).get? i =
      if i ∈ ks then (m.get? i).map f else m.get? i := by
  induction ks generalizing m with
  | nil =>
      simp
  | cons k ks ih =>
      rw [List.nodup_cons] at hnodup
      rw [List.foldl_cons, ih hnodup.2, get?_modify]
      by_cases hik : i = k
      · subst hik
        simp [hnodup.1]
      · simp [hik]

/-- Keys erased in turn are gone, and no others. -/
theorem get?_foldl_erase
    (ks : List κ)
    (i : κ) :
    (ks.foldl erase m).get? i = if i ∈ ks then none else m.get? i := by
  induction ks generalizing m with
  | nil =>
      rfl
  | cons k ks ih =>
      rw [List.foldl_cons, ih, get?_erase]
      by_cases hik : i = k <;> simp [hik]

/-- Entries inserted in turn come before those that were there. -/
theorem get?_foldl_insert
    (more : OrderedMap κ α)
    (i : κ) :
    (more.entries.foldl (fun m e => m.insert e.1 e.2) m).get? i =
      (more.get? i).or (m.get? i) := by
  have hfold : ∀ (l : List (κ × α)) (m : OrderedMap κ α), (l.map Prod.fst).Nodup →
      (l.foldl (fun m e => m.insert e.1 e.2) m).get? i = (find i l).or (m.get? i) := by
    intro l
    induction l with
    | nil =>
        intro m _
        rfl
    | cons e l ih =>
        intro m hnodup
        rw [List.map_cons, List.nodup_cons] at hnodup
        rw [List.foldl_cons, ih _ hnodup.2, get?_insert, find]
        by_cases hi : e.1 = i
        · have hnone : find i l = none := find_eq_none_iff.2 (hi ▸ hnodup.1)
          rw [hnone, if_pos hi.symm, if_pos hi]
          rfl
        · rw [if_neg (Ne.symm hi), if_neg hi]
  exact hfold more.entries m more.nodup_keys

omit [DecidableEq κ] in
@[simp] theorem keys_mapValues
    (f : α → α) :
    (m.mapValues f).keys = m.keys := by
  simp [keys, mapValues, List.map_map, Function.comp_def]

end Keys

end OrderedMap
end LinearLayout
