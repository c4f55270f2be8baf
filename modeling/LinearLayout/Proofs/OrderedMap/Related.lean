import Mathlib.Data.List.Forall2
import LinearLayout.OrderedMap.Lemmas
import LinearLayout.OrderedSet

/-!
# Ordered maps with corresponding keys

Two ordered maps are related if they have corresponding keys in the same order, with corresponding
values.  As long as corresponding keys are equal together or different together, no operation can
tell the maps apart, so its results correspond again.
-/

namespace LinearLayout

open Relator

section Lists

universe u v

variable {α : Type u} {β : Type v} {R : α → β → Prop} {l : List α} {l' : List β}

theorem biUnique_eq :
    BiUnique (Eq : α → α → Prop) :=
  ⟨fun _ _ _ h h' => h.trans h'.symm, fun _ _ _ h h' => h.symm.trans h'⟩

/-- Related options are both empty or both full. -/
theorem cases_of_rel
    {o : Option α} {o' : Option β}
    (h : Option.Rel R o o') :
    (o = none ∧ o' = none) ∨ ∃ a b, o = some a ∧ o' = some b ∧ R a b := by
  cases h with
  | none => exact Or.inl ⟨rfl, rfl⟩
  | some hab => exact Or.inr ⟨_, _, rfl, rfl, hab⟩

theorem find?_related
    {p : α → Bool} {q : β → Bool}
    (h : List.Forall₂ R l l')
    (hp : ∀ a b, R a b → p a = q b) :
    Option.Rel R (l.find? p) (l'.find? q) := by
  induction h with
  | nil =>
      exact Option.Rel.none
  | @cons a b l l' hab _ ih =>
      rw [List.find?_cons, List.find?_cons, hp a b hab]
      cases q b with
      | true => exact Option.Rel.some hab
      | false => exact ih

theorem all_related
    {p : α → Bool} {q : β → Bool}
    (h : List.Forall₂ R l l')
    (hp : ∀ a b, R a b → p a = q b) :
    l.all p = l'.all q := by
  induction h with
  | nil =>
      rfl
  | @cons a b l l' hab _ ih =>
      rw [List.all_cons, List.all_cons, hp a b hab, ih]

theorem filter_related
    {p : α → Bool} {q : β → Bool}
    (h : List.Forall₂ R l l')
    (hp : ∀ a b, R a b → p a = q b) :
    List.Forall₂ R (l.filter p) (l'.filter q) := by
  refine List.rel_filter (R := R) (fun a b hab => ?_) h
  change p a = true ↔ q b = true
  rw [hp a b hab]

theorem isEmpty_related
    (h : List.Forall₂ R l l') :
    l.isEmpty = l'.isEmpty := by
  cases h <;> rfl

theorem getLast?_related
    (h : List.Forall₂ R l l') :
    Option.Rel R l.getLast? l'.getLast? := by
  rw [← List.head?_reverse, ← List.head?_reverse]
  generalize hl : l.reverse = r, hl' : l'.reverse = r'
  have hreverse : List.Forall₂ R r r' := hl ▸ hl' ▸ List.rel_reverse h
  cases hreverse with
  | nil => exact Option.Rel.none
  | cons hab _ => exact Option.Rel.some hab

theorem erase_related
    [DecidableEq α] [DecidableEq β]
    (hR : BiUnique R)
    {a : α} {b : β}
    (hab : R a b)
    (h : List.Forall₂ R l l') :
    List.Forall₂ R (l.erase a) (l'.erase b) := by
  induction h with
  | nil =>
      exact List.Forall₂.nil
  | @cons c d l l' hcd hl ih =>
      by_cases hca : c = a
      · rw [hca, (rel_eq hR hcd hab).1 hca, List.erase_cons_head, List.erase_cons_head]
        exact hl
      · have hdb : d ≠ b := fun hdb => hca ((rel_eq hR hcd hab).2 hdb)
        rw [List.erase_cons_tail (by simpa using hca), List.erase_cons_tail (by simpa using hdb)]
        exact List.Forall₂.cons hcd ih

end Lists

namespace OrderedSet

universe u

variable {κ κ' : Type u} [DecidableEq κ] [DecidableEq κ'] {R : κ → κ' → Prop}
variable {s : OrderedSet κ} {s' : OrderedSet κ'} {k : κ} {k' : κ'}

theorem insert_related
    (hR : BiUnique R)
    (hk : R k k')
    (h : List.Forall₂ R s.toList s'.toList) :
    List.Forall₂ R (s.insert k).toList (s'.insert k').toList := by
  rw [toList_insert, toList_insert]
  by_cases hmem : k ∈ s.toList
  · rw [if_pos hmem, if_pos ((List.rel_mem hR hk h).1 hmem)]
    exact h
  · rw [if_neg hmem, if_neg fun hmem' => hmem ((List.rel_mem hR hk h).2 hmem')]
    exact List.rel_append h (List.Forall₂.cons hk List.Forall₂.nil)

end OrderedSet

namespace OrderedMap

universe u v

variable {κ κ' : Type u} {α α' : Type v} {R Q : κ → κ' → Prop} {A B : α → α' → Prop}
variable {m : OrderedMap κ α} {m' : OrderedMap κ' α'}

/-- Entry by entry the keys and the values correspond. -/
def Related (R : κ → κ' → Prop) (A : α → α' → Prop) (m : OrderedMap κ α)
    (m' : OrderedMap κ' α') : Prop :=
  List.Forall₂ (fun e e' => R e.1 e'.1 ∧ A e.2 e'.2) m.entries m'.entries

theorem related_empty :
    Related R A (∅ : OrderedMap κ α) (∅ : OrderedMap κ' α') :=
  List.Forall₂.nil

theorem Related.imp
    (h : Related R A m m')
    (hkey : ∀ k k', R k k' → Q k k')
    (hvalue : ∀ a a', A a a' → B a a') :
    Related Q B m m' :=
  List.Forall₂.imp (fun _ _ he => ⟨hkey _ _ he.1, hvalue _ _ he.2⟩) h

/-- Maps whose keys and values are equal are equal. -/
theorem related_eq_iff
    {m m' : OrderedMap κ α} :
    Related Eq Eq m m' ↔ m = m' := by
  have hentry : (fun e e' : κ × α => e.1 = e'.1 ∧ e.2 = e'.2) = Eq :=
    funext fun _ => funext fun _ => propext Prod.ext_iff.symm
  rw [Related, hentry, List.forall₂_eq_eq_eq]
  exact OrderedMap.ext_iff.symm

theorem Related.keys
    (h : Related R A m m') :
    List.Forall₂ R m.keys m'.keys :=
  List.rel_map (fun _ _ he => he.1) h

theorem Related.size
    (h : Related R A m m') :
    m.size = m'.size :=
  List.Forall₂.length_eq h

theorem Related.isEmpty
    (h : Related R A m m') :
    m.isEmpty = m'.isEmpty :=
  isEmpty_related h

theorem Related.mapValues
    {f : α → α} {f' : α' → α'}
    (h : Related R A m m')
    (hf : ∀ a a', A a a' → A (f a) (f' a')) :
    Related R A (m.mapValues f) (m'.mapValues f') :=
  List.rel_map (fun _ _ he => ⟨he.1, hf _ _ he.2⟩) h

variable [DecidableEq κ] [DecidableEq κ'] {k : κ} {k' : κ'}

theorem Related.get?
    (h : Related R A m m')
    (hR : BiUnique R)
    (hk : R k k') :
    Option.Rel A (m.get? k) (m'.get? k') := by
  have hfind : ∀ l l', List.Forall₂ (fun (e : κ × α) (e' : κ' × α') => R e.1 e'.1 ∧ A e.2 e'.2)
      l l' → Option.Rel A (find k l) (find k' l') := by
    intro l l' hl
    induction hl with
    | nil =>
        exact Option.Rel.none
    | @cons e e' l l' he _ ih =>
        by_cases hkey : e.1 = k
        · rw [find, find, if_pos hkey, if_pos ((rel_eq hR he.1 hk).1 hkey)]
          exact Option.Rel.some he.2
        · rw [find, find, if_neg hkey, if_neg fun hkey' => hkey ((rel_eq hR he.1 hk).2 hkey')]
          exact ih
  exact hfind _ _ h

theorem Related.contains
    (h : Related R A m m')
    (hR : BiUnique R)
    (hk : R k k') :
    m.contains k = m'.contains k' := by
  rw [OrderedMap.contains, OrderedMap.contains]
  rcases cases_of_rel (h.get? hR hk) with ⟨hm, hm'⟩ | ⟨a, a', hm, hm', _⟩
  · rw [hm, hm']
    rfl
  · rw [hm, hm']
    rfl

theorem Related.alter
    {f : Option α → Option α} {f' : Option α' → Option α'}
    (h : Related R A m m')
    (hR : BiUnique R)
    (hk : R k k')
    (hf : ∀ o o', Option.Rel A o o' → Option.Rel A (f o) (f' o')) :
    Related R A (m.alter k f) (m'.alter k' f') := by
  have hentries : ∀ l l', List.Forall₂ (fun (e : κ × α) (e' : κ' × α') => R e.1 e'.1 ∧ A e.2 e'.2)
      l l' → List.Forall₂ (fun e e' => R e.1 e'.1 ∧ A e.2 e'.2) (alterEntries k f l)
        (alterEntries k' f' l') := by
    intro l l' hl
    induction hl with
    | nil =>
        rcases cases_of_rel (hf none none Option.Rel.none) with ⟨hn, hn'⟩ | ⟨a, a', hn, hn', ha⟩
        · rw [alterEntries, alterEntries, hn, hn']
          exact List.Forall₂.nil
        · rw [alterEntries, alterEntries, hn, hn']
          exact List.Forall₂.cons ⟨hk, ha⟩ List.Forall₂.nil
    | @cons e e' l l' he hl ih =>
        by_cases hkey : e.1 = k
        · rw [alterEntries, alterEntries, if_pos hkey, if_pos ((rel_eq hR he.1 hk).1 hkey)]
          rcases cases_of_rel (hf _ _ (Option.Rel.some he.2)) with
            ⟨hn, hn'⟩ | ⟨a, a', hn, hn', ha⟩
          · rw [hn, hn']
            exact hl
          · rw [hn, hn']
            exact List.Forall₂.cons ⟨he.1, ha⟩ hl
        · rw [alterEntries, alterEntries, if_neg hkey,
            if_neg fun hkey' => hkey ((rel_eq hR he.1 hk).2 hkey')]
          exact List.Forall₂.cons he ih
  exact hentries _ _ h

theorem Related.insert
    {a : α} {a' : α'}
    (h : Related R A m m')
    (hR : BiUnique R)
    (hk : R k k')
    (ha : A a a') :
    Related R A (m.insert k a) (m'.insert k' a') :=
  h.alter hR hk fun _ _ _ => Option.Rel.some ha

theorem Related.erase
    (h : Related R A m m')
    (hR : BiUnique R)
    (hk : R k k') :
    Related R A (m.erase k) (m'.erase k') :=
  h.alter hR hk fun _ _ _ => Option.Rel.none

/-- A key that has an entry in the second map corresponds to one in the first. -/
theorem Related.exists_of_get?
    {a' : α'}
    (h : Related R A m m')
    (hk : m'.get? k' = some a') :
    ∃ k a, R k k' ∧ m.get? k = some a ∧ A a a' := by
  have hmem : ∀ l l', List.Forall₂ (fun (e : κ × α) (e' : κ' × α') => R e.1 e'.1 ∧ A e.2 e'.2)
      l l' → (k', a') ∈ l' → ∃ k a, R k k' ∧ (k, a) ∈ l ∧ A a a' := by
    intro l l' hl
    induction hl with
    | nil =>
        intro hmem
        cases hmem
    | @cons e e' l l' he _ ih =>
        intro hmem
        rcases List.mem_cons.1 hmem with rfl | hmem
        · exact ⟨e.1, e.2, he.1, List.mem_cons_self, he.2⟩
        · obtain ⟨k, a, hR, hka, hA⟩ := ih hmem
          exact ⟨k, a, hR, List.mem_cons_of_mem _ hka, hA⟩
  obtain ⟨k, a, hR, hka, hA⟩ := hmem _ _ h (get?_eq_some_iff.1 hk)
  exact ⟨k, a, hR, get?_eq_some_iff.2 hka, hA⟩

end OrderedMap
end LinearLayout
