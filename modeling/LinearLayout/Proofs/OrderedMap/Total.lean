import Mathlib.Tactic.Abel
import LinearLayout.OrderedMap.Lemmas

/-!
# Sums over ordered maps

A sum over the entries of a map does not see their order.  Changing the entry of one key exchanges
its old summand for a new one.
-/

namespace LinearLayout
namespace OrderedMap

universe u v

variable {κ : Type u} {α : Type v} {M : Type} [AddCommGroup M]

/-- The sum of a function over all entries. -/
def total (m : OrderedMap κ α) (g : κ → α → M) : M :=
  (m.entries.map fun e => g e.1 e.2).sum

@[simp] theorem total_empty
    (g : κ → α → M) :
    (∅ : OrderedMap κ α).total g = 0 :=
  rfl

theorem total_mapValues
    (m : OrderedMap κ α) (f : α → α) (g : κ → α → M) :
    (m.mapValues f).total g = m.total fun k a => g k (f a) := by
  simp [total, mapValues, Function.comp_def]

theorem total_congr
    {m : OrderedMap κ α} {g h : κ → α → M}
    (hgh : ∀ e ∈ m.entries, g e.1 e.2 = h e.1 e.2) :
    m.total g = m.total h := by
  unfold total
  rw [List.map_congr_left hgh]

variable [DecidableEq κ]

/-- The summand of an entry that may be missing. -/
def summand (g : κ → α → M) (k : κ) (o : Option α) : M :=
  o.elim 0 (g k)

theorem sum_alterEntries
    (k : κ) (f : Option α → Option α) (g : κ → α → M)
    {l : List (κ × α)}
    (hl : (l.map Prod.fst).Nodup) :
    ((alterEntries k f l).map fun e => g e.1 e.2).sum + summand g k (find k l) =
      (l.map fun e => g e.1 e.2).sum + summand g k (f (find k l)) := by
  induction l with
  | nil =>
      cases hf : f none <;> simp [alterEntries, find, summand, hf]
  | cons e l ih =>
      obtain ⟨j, a⟩ := e
      rw [List.map_cons, List.nodup_cons] at hl
      by_cases hjk : j = k
      · cases hf : f (some a) with
        | none =>
            simp only [alterEntries, find, hjk, if_true, hf, summand, Option.elim,
              List.map_cons, List.sum_cons]
            abel
        | some b =>
            simp only [alterEntries, find, hjk, if_true, hf, summand, Option.elim,
              List.map_cons, List.sum_cons]
            abel
      · simp only [alterEntries, find, hjk, if_false, List.map_cons, List.sum_cons]
        rw [add_assoc, ih hl.2, add_assoc]

theorem total_alter
    (m : OrderedMap κ α) (k : κ) (f : Option α → Option α) (g : κ → α → M) :
    (m.alter k f).total g =
      m.total g - summand g k (m.get? k) + summand g k (f (m.get? k)) := by
  have h := sum_alterEntries k f g m.nodup_keys
  rw [sub_add_eq_add_sub]
  exact eq_sub_of_add_eq h

theorem total_insert_of_not_mem
    (m : OrderedMap κ α) {k : κ} (a : α) (g : κ → α → M)
    (h : m.get? k = none) :
    (m.insert k a).total g = m.total g + g k a := by
  rw [insert, total_alter, h]
  simp [summand]

theorem total_erase_of_mem
    (m : OrderedMap κ α) {k : κ} {a : α} (g : κ → α → M)
    (h : m.get? k = some a) :
    (m.erase k).total g = m.total g - g k a := by
  rw [erase, total_alter, h]
  simp [summand]

end OrderedMap
end LinearLayout
