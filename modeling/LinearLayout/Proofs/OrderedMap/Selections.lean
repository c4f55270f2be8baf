import LinearLayout.OrderedMap.Lemmas

/-!
# Entries that are selected, erased or replaced

Selecting entries and erasing a key can be done in either order.  As multisets the values of a map
are the value of one key together with the values of the others.
-/

namespace LinearLayout

universe u v w

namespace OrderedMap

variable {κ : Type u} {α : Type v} [DecidableEq κ] {m : OrderedMap κ α} {k : κ} {a b : α}

section Selected

variable (p : κ → α → Bool)

theorem alterEntries_none_eq_filter
    {l : List (κ × α)}
    (hl : (l.map Prod.fst).Nodup) :
    alterEntries k (fun _ => none) l = l.filter fun e => e.1 ≠ k := by
  induction l with
  | nil =>
      rfl
  | cons e l ih =>
      obtain ⟨j, a⟩ := e
      rw [List.map_cons, List.nodup_cons] at hl
      by_cases hjk : j = k
      · subst hjk
        have hrest : ∀ e ∈ l, e.1 ≠ j := fun e he hej =>
          hl.1 (List.mem_map.2 ⟨e, he, hej⟩)
        have hall : l.filter (fun e => e.1 ≠ j) = l :=
          List.filter_eq_self.2 fun e he => by simpa using hrest e he
        simpa [alterEntries] using hall.symm
      · simp [alterEntries, hjk, ih hl.2]

theorem erase_eq_filter :
    m.erase k = m.filter fun i _ => i ≠ k :=
  OrderedMap.ext (alterEntries_none_eq_filter m.nodup_keys)

omit [DecidableEq κ] in
theorem filter_filter
    (q : κ → α → Bool) :
    (m.filter p).filter q = m.filter fun i a => q i a && p i a :=
  OrderedMap.ext List.filter_filter

theorem filter_congr
    {p q : κ → α → Bool}
    (h : ∀ i a, m.get? i = some a → p i a = q i a) :
    m.filter p = m.filter q :=
  OrderedMap.ext (List.filter_congr fun e he => h e.1 e.2 (get?_eq_some_iff.2 he))

theorem filter_eq_self
    (h : ∀ i a, m.get? i = some a → p i a = true) :
    m.filter p = m :=
  OrderedMap.ext (List.filter_eq_self.2 fun e he => h e.1 e.2 (get?_eq_some_iff.2 he))

theorem filter_erase :
    (m.erase k).filter p = (m.filter p).erase k := by
  rw [erase_eq_filter, erase_eq_filter, filter_filter, filter_filter]
  exact filter_congr fun i a _ => Bool.and_comm _ _

theorem erase_comm
    (i j : κ) :
    (m.erase i).erase j = (m.erase j).erase i := by
  refine ext_of_get? ?_ fun x => ?_
  · rw [keys_erase, keys_erase, keys_erase, keys_erase, List.erase_comm]
  · simp only [get?_erase]
    split <;> split <;> rfl

/-- A new key leaves nothing behind when it is erased. -/
theorem erase_insert_of_not_mem
    (a : α) (h : k ∉ m.keys) :
    (m.insert k a).erase k = m := by
  refine ext_of_get? ?_ fun x => ?_
  · rw [keys_erase, keys_insert_of_not_mem a h, List.erase_append_right _ h,
      List.erase_cons_head, List.append_nil]
  · rw [get?_erase, get?_insert]
    split
    · next hx => rw [hx, get?_eq_none_iff.2 h]
    · rfl

/-- A new key is selected last. -/
theorem keys_filter_insert_of_not_mem
    (h : k ∉ m.keys) :
    ((m.insert k a).filter p).keys = (m.filter p).keys ++ if p k a then [k] else [] := by
  have hentries : (m.insert k a).entries = m.entries ++ [(k, a)] :=
    (alterEntries_of_find_eq_none (get?_eq_none_iff.2 h)).trans (by simp)
  have hkeys : ((m.insert k a).filter p).keys =
      ((m.entries ++ [(k, a)]).filter fun e => p e.1 e.2).map Prod.fst :=
    congrArg (fun l => (l.filter fun e : κ × α => p e.1 e.2).map Prod.fst) hentries
  rw [hkeys, List.filter_append, List.map_append]
  by_cases hp : p k a = true
  · simp [hp, keys, filter]
  · simp [hp, keys, filter]

theorem map_fst_filter_alterEntries
    {l : List (κ × α)}
    (hk : find k l = some b)
    (hp : p k a = p k b) :
    ((alterEntries k (fun _ => some a) l).filter fun e => p e.1 e.2).map Prod.fst =
      (l.filter fun e => p e.1 e.2).map Prod.fst := by
  induction l with
  | nil =>
      cases hk
  | cons e l ih =>
      obtain ⟨j, c⟩ := e
      by_cases hjk : j = k
      · subst hjk
        rw [find, if_pos rfl, Option.some.injEq] at hk
        subst hk
        rw [alterEntries, if_pos rfl, List.filter_cons, List.filter_cons]
        by_cases hc : p j c = true <;> simp [hp, hc]
      · rw [find, if_neg hjk] at hk
        rw [alterEntries, if_neg hjk, List.filter_cons, List.filter_cons]
        by_cases hc : p j c = true <;> simp [hc, ih hk]

/-- A key that is overwritten keeps its place in a selection that does not tell the values apart. -/
theorem keys_filter_insert_of_get?
    (h : m.get? k = some b)
    (hp : p k a = p k b) :
    ((m.insert k a).filter p).keys = (m.filter p).keys :=
  map_fst_filter_alterEntries p h hp

theorem filterMap_get?_keys_filter :
    (m.filter p).keys.filterMap m.get? = (m.filter p).values := by
  have hsome : ∀ l : List (κ × α), (∀ e ∈ l, m.get? e.1 = some e.2) →
      (l.map Prod.fst).filterMap m.get? = l.map Prod.snd := by
    intro l hl
    induction l with
    | nil =>
        rfl
    | cons e l ih =>
        rw [List.map_cons, List.filterMap_cons_some (hl e List.mem_cons_self), List.map_cons,
          ih fun e he => hl e (List.mem_cons_of_mem _ he)]
  exact hsome _ fun e he => get?_eq_some_iff.2 (List.mem_filter.1 he).1

end Selected

section Values

/-- A change of one key exchanges its old value for its new one. -/
theorem values_alter_perm
    (m : OrderedMap κ α) (k : κ) (f : Option α → Option α) :
    ((m.get? k).toList ++ (m.alter k f).values).Perm ((f (m.get? k)).toList ++ m.values) := by
  have hentries : ∀ l : List (κ × α),
      ((find k l).toList ++ (alterEntries k f l).map Prod.snd).Perm
        ((f (find k l)).toList ++ l.map Prod.snd) := by
    intro l
    induction l with
    | nil =>
        cases hf : f none <;> simp [find, alterEntries, hf]
    | cons e l ih =>
        obtain ⟨j, c⟩ := e
        by_cases hjk : j = k
        · cases hf : f (some c) with
          | none => simp [find, alterEntries, hjk, hf]
          | some b => simpa [find, alterEntries, hjk, hf] using List.Perm.swap b c (l.map Prod.snd)
        · rw [find, if_neg hjk, alterEntries, if_neg hjk, List.map_cons, List.map_cons]
          exact List.perm_middle.trans ((ih.cons c).trans List.perm_middle.symm)
  exact hentries m.entries

theorem values_erase_perm
    (m : OrderedMap κ α) (k : κ) :
    ((m.get? k).toList ++ (m.erase k).values).Perm m.values :=
  values_alter_perm m k _

theorem values_insert_perm
    (m : OrderedMap κ α) (k : κ) (a : α) :
    ((m.get? k).toList ++ (m.insert k a).values).Perm (a :: m.values) :=
  values_alter_perm m k _

/-- A change that a function of the values does not see. -/
theorem map_values_modify
    {β : Type w} {f : α → α} {g : α → β}
    (hg : ∀ a, g (f a) = g a)
    (m : OrderedMap κ α) (k : κ) :
    (m.modify k f).values.map g = m.values.map g := by
  have hentries : ∀ l : List (κ × α),
      (alterEntries k (Option.map f) l).map (g ∘ Prod.snd) = l.map (g ∘ Prod.snd) := by
    intro l
    induction l with
    | nil =>
        rfl
    | cons e l ih =>
        obtain ⟨j, c⟩ := e
        by_cases hjk : j = k
        · simp [alterEntries, hjk, hg]
        · simpa [alterEntries, hjk] using ih
  simpa [values, modify, alter] using hentries m.entries

end Values

end OrderedMap
end LinearLayout
