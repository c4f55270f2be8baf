import LinearLayout.OrderedMap.Lemmas

/-!
# Changes that change nothing

A change that gives a key the value it has leaves the map as it is, and so does a change of all
values that keeps each of them.  Erasing one key and changing another can be done in either order.
-/

namespace LinearLayout

universe u v

namespace OrderedMap

variable {κ : Type u} {α : Type v} [DecidableEq κ] {m : OrderedMap κ α} {k i : κ}

theorem alterEntries_congr
    {f g : Option α → Option α} {l : List (κ × α)}
    (h : f (find k l) = g (find k l)) :
    alterEntries k f l = alterEntries k g l := by
  induction l with
  | nil =>
      rw [find] at h
      simp only [alterEntries, h]
  | cons e l ih =>
      obtain ⟨j, b⟩ := e
      by_cases hjk : j = k
      · rw [find, if_pos hjk] at h
        simp only [alterEntries, hjk, if_true, h]
      · rw [find, if_neg hjk] at h
        simp only [alterEntries, hjk, if_false, ih h]

theorem alterEntries_eq_self
    {l : List (κ × α)} :
    alterEntries k (fun _ => find k l) l = l := by
  induction l with
  | nil =>
      rfl
  | cons e l ih =>
      obtain ⟨j, b⟩ := e
      by_cases hjk : j = k
      · simp [alterEntries, find, hjk]
      · simp [alterEntries, find, hjk, ih]

theorem alterEntries_erase_comm
    (hik : i ≠ k)
    (f : Option α → Option α) (l : List (κ × α)) :
    alterEntries i f (alterEntries k (fun _ => none) l) =
      alterEntries k (fun _ => none) (alterEntries i f l) := by
  induction l with
  | nil =>
      cases hf : f none <;> simp [alterEntries, hf, hik]
  | cons e l ih =>
      obtain ⟨j, b⟩ := e
      by_cases hjk : j = k
      · have hji : j ≠ i := fun hji => hik (hji.symm.trans hjk)
        simp [alterEntries, hjk, hik.symm]
      · by_cases hji : j = i
        · subst hji
          cases hf : f (some b) <;> simp [alterEntries, hjk, hf]
        · simp [alterEntries, hjk, hji, ih]

/-- Only what a change makes of the present value matters. -/
theorem alter_congr
    {f g : Option α → Option α}
    (h : f (m.get? k) = g (m.get? k)) :
    m.alter k f = m.alter k g :=
  OrderedMap.ext (alterEntries_congr h)

theorem alter_eq_self
    {f : Option α → Option α}
    (h : f (m.get? k) = m.get? k) :
    m.alter k f = m :=
  (alter_congr (g := fun _ => m.get? k) h).trans (OrderedMap.ext alterEntries_eq_self)

theorem modify_eq_self
    {f : α → α}
    (h : ∀ a, m.get? k = some a → f a = a) :
    m.modify k f = m := by
  refine alter_eq_self ?_
  cases hk : m.get? k with
  | none => rfl
  | some a => rw [Option.map_some, h a hk]

theorem mapValues_eq_self
    {f : α → α}
    (h : ∀ k a, m.get? k = some a → f a = a) :
    m.mapValues f = m := by
  refine ext_of_get? (keys_mapValues f) fun i => ?_
  rw [get?_mapValues]
  cases hi : m.get? i with
  | none => rfl
  | some a => rw [Option.map_some, h i a hi]

theorem erase_alter_comm
    (hik : i ≠ k)
    (f : Option α → Option α) :
    (m.erase k).alter i f = (m.alter i f).erase k :=
  OrderedMap.ext (alterEntries_erase_comm hik f m.entries)

theorem modify_modify
    (f g : α → α) :
    (m.modify k f).modify k g = m.modify k (g ∘ f) := by
  refine ext_of_get? (by simp) fun i => ?_
  by_cases hik : i = k
  · simp [get?_modify, hik]
  · simp [get?_modify, hik]

end OrderedMap
end LinearLayout
