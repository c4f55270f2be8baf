import Mathlib.Data.List.Perm.Subperm
import LinearLayout.Necessity

/-!
# The least set of fixed variables

Items and boxes determine a least set of variables.  The analysis goes through the items again and
again, drops an item as soon as one of its sides is fixed, and closes a box only at the moment at
which a second variable of it is fixed.  It nevertheless ends with exactly this set.

What carries the sweeps is that a box is never left half closed: either at most one of its
variables is fixed, or all of them are.
-/

namespace LinearLayout

/-- What is determined by items that hold as equalities and by the boxes of all entities. -/
inductive Determined (items : Item → Prop) : Variable → Prop
  /-- An item without a right side determines its left side. -/
  | alone {item : Item} :
      items item → item.right = none → Determined items item.left
  /-- The left side of an item determines its right side. -/
  | right {item : Item} {v : Variable} :
      items item → item.right = some v → Determined items item.left → Determined items v
  /-- The right side of an item determines its left side. -/
  | left {item : Item} {v : Variable} :
      items item → item.right = some v → Determined items v → Determined items item.left
  /-- Two variables of a box determine all four. -/
  | box {v w x : Variable} :
      w ∈ v.boxmates → x ∈ v.boxmates → v ≠ w → Determined items v → Determined items w →
      Determined items x

namespace Variable

variable {v w x : Variable}

theorem mem_boxmates_iff :
    w ∈ v.boxmates ↔ w.entity = v.entity ∧ w.attr.axis = v.attr.axis := by
  rw [boxmates, List.mem_map]
  constructor
  · rintro ⟨a, ha, rfl⟩
    exact ⟨rfl, Attribute.axis_of_mem_boxAttributes ha⟩
  · rintro ⟨hentity, haxis⟩
    exact ⟨w.attr, haxis ▸ Attribute.mem_boxAttributes_axis w.attr, by rw [← hentity]⟩

theorem mem_boxmates_self
    (v : Variable) :
    v ∈ v.boxmates :=
  mem_boxmates_iff.2 ⟨rfl, rfl⟩

/-- Variables of one box have the same box. -/
theorem boxmates_eq
    (h : w ∈ v.boxmates) :
    w.boxmates = v.boxmates := by
  obtain ⟨hentity, haxis⟩ := mem_boxmates_iff.1 h
  rw [boxmates, boxmates, hentity, haxis]

theorem nodup_boxmates
    (v : Variable) :
    v.boxmates.Nodup := by
  obtain ⟨e, a⟩ := v
  cases a <;> simp [boxmates, Attribute.axis, Axis.boxAttributes, Axis.leading, Axis.trailing,
    Axis.extent, Axis.center]

end Variable

namespace Determined

variable {items items' : Item → Prop} {v : Variable}

theorem mono
    (h : Determined items v)
    (himp : ∀ item, items item → items' item) :
    Determined items' v := by
  induction h with
  | alone hitem hright => exact alone (himp _ hitem) hright
  | right hitem hright _ ih => exact right (himp _ hitem) hright ih
  | left hitem hright _ ih => exact left (himp _ hitem) hright ih
  | box hw hx hne _ _ ihv ihw => exact box hw hx hne ihv ihw

/-- Only the items themselves matter. -/
theorem congr
    (h : ∀ item, items item ↔ items' item) :
    Determined items v ↔ Determined items' v :=
  ⟨fun hv => hv.mono fun item => (h item).1, fun hv => hv.mono fun item => (h item).2⟩

/-- Boxes alone determine nothing. -/
theorem exists_item
    (h : Determined items v) :
    ∃ item, items item := by
  induction h with
  | alone hitem _ => exact ⟨_, hitem⟩
  | right hitem _ _ _ => exact ⟨_, hitem⟩
  | left hitem _ _ _ => exact ⟨_, hitem⟩
  | box _ _ _ _ _ ih _ => exact ih

end Determined

namespace Fixed

variable {fixed later : Fixed} {items : Item → Prop} {item : Item} {v w x : Variable}

/-- A box with two fixed variables is fixed. -/
def BoxClosed (fixed : Fixed) : Prop :=
  ∀ v w x, w ∈ v.boxmates → x ∈ v.boxmates → v ≠ w →
    v ∈ fixed.toList → w ∈ fixed.toList → x ∈ fixed.toList

/-- All variables that are fixed are determined, and no box is half closed. -/
structure Sound (items : Item → Prop) (fixed : Fixed) : Prop where
  boxes : fixed.BoxClosed
  determined : ∀ v ∈ fixed.toList, Determined items v

/-- Both sides of an item are fixed. -/
def Covers (fixed : Fixed) (item : Item) : Prop :=
  item.left ∈ fixed.toList ∧ ∀ v, item.right = some v → v ∈ fixed.toList

theorem Covers.mono
    (h : fixed.Covers item)
    (hsubset : fixed.toList ⊆ later.toList) :
    later.Covers item :=
  ⟨hsubset h.1, fun v hv => hsubset (h.2 v hv)⟩

theorem sound_empty
    (items : Item → Prop) :
    Sound items ∅ :=
  ⟨fun _ _ _ _ _ _ h => (nomatch h), nofun⟩

section Mark

/-- Two of a box are marked if another one was fixed before. -/
theorem two_le_marked_iff
    (hv : v ∉ fixed.toList) :
    2 ≤ (v.boxmates.filter (fixed.insert v).contains).length ↔
      ∃ w ∈ v.boxmates, v ≠ w ∧ w ∈ fixed.toList := by
  have hmem : ∀ w, w ∈ v.boxmates.filter (fixed.insert v).contains ↔
      w ∈ v.boxmates ∧ (w ∈ fixed.toList ∨ w = v) := by
    simp
  have hnodup : (v.boxmates.filter (fixed.insert v).contains).Nodup := v.nodup_boxmates.filter _
  constructor
  · intro htwo
    by_contra hnone
    have hsubset : v.boxmates.filter (fixed.insert v).contains ⊆ [v] := by
      intro w hw
      obtain ⟨hbox, hmarked⟩ := (hmem w).1 hw
      refine List.mem_singleton.2 (hmarked.resolve_left fun hfixed => hnone ⟨w, hbox, ?_, hfixed⟩)
      exact fun hvw => hv (hvw ▸ hfixed)
    have hlength := (hnodup.subperm hsubset).length_le
    rw [List.length_singleton] at hlength
    omega
  · rintro ⟨w, hbox, hne, hfixed⟩
    have hpair : [v, w].Nodup := by simpa using hne
    refine (hpair.subperm fun x hx => ?_).length_le
    rcases List.mem_pair.1 hx with rfl | rfl
    · exact (hmem x).2 ⟨x.mem_boxmates_self, Or.inr rfl⟩
    · exact (hmem x).2 ⟨hbox, Or.inl hfixed⟩

/-- Marking adds the variable, and the whole of its box if another variable of it was fixed. -/
theorem mem_mark_iff
    (h : fixed.BoxClosed) :
    x ∈ (fixed.mark v).toList ↔ x ∈ fixed.toList ∨ x = v ∨
      (x ∈ v.boxmates ∧ ∃ w ∈ v.boxmates, v ≠ w ∧ w ∈ fixed.toList) := by
  unfold mark
  by_cases hv : v ∈ fixed.toList
  · rw [if_pos (OrderedSet.contains_eq_true.2 hv)]
    constructor
    · exact Or.inl
    · rintro (hx | rfl | ⟨hx, w, hw, hne, hfixed⟩)
      · exact hx
      · exact hv
      · exact h v w x hw hx hne hv hfixed
  · rw [if_neg (mt OrderedSet.contains_eq_true.1 hv)]
    dsimp only
    by_cases hbox : ∃ w ∈ v.boxmates, v ≠ w ∧ w ∈ fixed.toList
    · rw [if_pos ((two_le_marked_iff hv).2 hbox)]
      simp [hbox, or_assoc]
    · rw [if_neg (mt (two_le_marked_iff hv).1 hbox)]
      simp [hbox]

theorem subset_mark
    (h : fixed.BoxClosed)
    (v : Variable) :
    fixed.toList ⊆ (fixed.mark v).toList :=
  fun _ hx => (mem_mark_iff h).2 (Or.inl hx)

theorem mem_mark_self
    (h : fixed.BoxClosed)
    (v : Variable) :
    v ∈ (fixed.mark v).toList :=
  (mem_mark_iff h).2 (Or.inr (Or.inl rfl))

theorem BoxClosed.mark
    (h : fixed.BoxClosed)
    (v : Variable) :
    (fixed.mark v).BoxClosed := by
  intro a b x hb hx hne hamark hbmark
  rw [mem_mark_iff h] at hamark hbmark ⊢
  rcases hamark with hafixed | rfl | ⟨habox, hw⟩
  · rcases hbmark with hbfixed | rfl | ⟨hbbox, hw⟩
    · exact Or.inl (h a b x hb hx hne hafixed hbfixed)
    · have hbox := Variable.boxmates_eq hb
      exact Or.inr (Or.inr ⟨hbox ▸ hx, a, hbox ▸ a.mem_boxmates_self, hne.symm, hafixed⟩)
    · have hbox : v.boxmates = a.boxmates :=
        (Variable.boxmates_eq hbbox).symm.trans (Variable.boxmates_eq hb)
      exact Or.inr (Or.inr ⟨hbox ▸ hx, hw⟩)
  · rcases hbmark with hbfixed | rfl | ⟨_, hw⟩
    · exact Or.inr (Or.inr ⟨hx, b, hb, hne, hbfixed⟩)
    · exact absurd rfl hne
    · exact Or.inr (Or.inr ⟨hx, hw⟩)
  · exact Or.inr (Or.inr ⟨Variable.boxmates_eq habox ▸ hx, hw⟩)

theorem Sound.mark
    (h : Sound items fixed)
    (hv : Determined items v) :
    Sound items (fixed.mark v) where
  boxes := h.boxes.mark v
  determined := by
    intro x hx
    rcases (mem_mark_iff h.boxes).1 hx with hx | rfl | ⟨hx, w, hw, hne, hfixed⟩
    · exact h.determined x hx
    · exact hv
    · exact .box hw hx hne hv (h.determined w hfixed)

end Mark

section Resolve

/-- An item waits as long as it has a right side and neither side is fixed. -/
theorem resolve?_eq_none_iff :
    fixed.resolve? item = none ↔
      item.left ∉ fixed.toList ∧ ∃ v, item.right = some v ∧ v ∉ fixed.toList := by
  unfold resolve?
  by_cases hleft : item.left ∈ fixed.toList
  · cases hright : item.right <;> simp [hleft]
  · cases hright : item.right <;> simp [hleft]

/-- An item that is applied has both sides fixed afterwards, as it determines them. -/
theorem Sound.resolve?
    (h : Sound items fixed)
    (hitem : items item)
    (happly : fixed.resolve? item = some later) :
    Sound items later ∧ fixed.toList ⊆ later.toList ∧ later.Covers item := by
  unfold Fixed.resolve? at happly
  by_cases hleft : item.left ∈ fixed.toList
  · rw [if_pos (OrderedSet.contains_eq_true.2 hleft)] at happly
    cases hright : item.right with
    | none =>
        rw [hright, Option.some.injEq] at happly
        exact happly ▸ ⟨h, List.Subset.refl _, hleft, by simp [hright]⟩
    | some v =>
        rw [hright, Option.some.injEq] at happly
        have hgrows := subset_mark h.boxes v
        refine happly ▸ ⟨h.mark (.right hitem hright (h.determined _ hleft)), hgrows,
          hgrows hleft, fun w hw => ?_⟩
        rw [← Option.some.inj (hright.symm.trans hw)]
        exact mem_mark_self h.boxes v
  · rw [if_neg (mt OrderedSet.contains_eq_true.1 hleft)] at happly
    cases hright : item.right with
    | none =>
        rw [hright, Option.some.injEq] at happly
        exact happly ▸ ⟨h.mark (.alone hitem hright), subset_mark h.boxes _,
          mem_mark_self h.boxes _, by simp [hright]⟩
    | some v =>
        simp only [hright, Option.ite_none_right_eq_some, OrderedSet.contains_eq_true,
          Option.some.injEq] at happly
        obtain ⟨hv, rfl⟩ := happly
        have hgrows := subset_mark h.boxes item.left
        refine ⟨h.mark (.left hitem hright (h.determined v hv)), hgrows,
          mem_mark_self h.boxes _, fun w hw => ?_⟩
        rw [← Option.some.inj (hright.symm.trans hw)]
        exact hgrows hv

end Resolve

section Sweep

variable {waiting : List Item}

/-- A sweep applies what it drops. -/
theorem Sound.sweep
    (h : Sound items fixed)
    (hwaiting : ∀ item ∈ waiting, items item) :
    Sound items (fixed.sweep waiting).1 ∧ fixed.toList ⊆ (fixed.sweep waiting).1.toList ∧
      ∀ item ∈ waiting, item ∈ (fixed.sweep waiting).2 ∨ (fixed.sweep waiting).1.Covers item := by
  induction waiting generalizing fixed with
  | nil =>
      exact ⟨h, List.Subset.refl _, nofun⟩
  | cons item waiting ih =>
      have hrest : ∀ item ∈ waiting, items item := fun i hi =>
        hwaiting i (List.mem_cons_of_mem _ hi)
      cases happly : fixed.resolve? item with
      | none =>
          obtain ⟨hsound, hgrows, hcovers⟩ := ih h hrest
          simp only [Fixed.sweep, happly]
          refine ⟨hsound, hgrows, fun i hi => ?_⟩
          rcases List.mem_cons.1 hi with rfl | hi
          · exact Or.inl List.mem_cons_self
          · exact (hcovers i hi).imp_left (List.mem_cons_of_mem _)
      | some later =>
          obtain ⟨hlater, hmore, hcovered⟩ := h.resolve? (hwaiting item List.mem_cons_self) happly
          obtain ⟨hsound, hgrows, hcovers⟩ := ih hlater hrest
          simp only [Fixed.sweep, happly]
          refine ⟨hsound, List.Subset.trans hmore hgrows, fun i hi => ?_⟩
          rcases List.mem_cons.1 hi with rfl | hi
          · exact Or.inr (hcovered.mono hgrows)
          · exact hcovers i hi

/-- A sweep that drops nothing has changed nothing, and nothing can be applied. -/
theorem sweep_eq_self
    (h : waiting.length ≤ (fixed.sweep waiting).2.length) :
    fixed.sweep waiting = (fixed, waiting) ∧ ∀ item ∈ waiting, fixed.resolve? item = none := by
  induction waiting generalizing fixed with
  | nil =>
      exact ⟨rfl, nofun⟩
  | cons item waiting ih =>
      cases happly : fixed.resolve? item with
      | none =>
          simp only [sweep, happly, List.length_cons, Nat.add_le_add_iff_right] at h ⊢
          obtain ⟨hsame, hnone⟩ := ih h
          exact ⟨by rw [hsame], List.forall_mem_cons.2 ⟨happly, hnone⟩⟩
      | some later =>
          have hshort := (sweep_sublist later waiting).length_le
          simp only [sweep, happly, List.length_cons] at h
          omega

end Sweep

section Settle

variable {waiting : List Item}

/-- In the end every item is covered, or neither of its sides is fixed. -/
theorem Sound.settle
    (h : Sound items fixed)
    (hwaiting : ∀ item ∈ waiting, items item) :
    Sound items (fixed.settle waiting) ∧ fixed.toList ⊆ (fixed.settle waiting).toList ∧
      ∀ item ∈ waiting, (fixed.settle waiting).Covers item ∨
        (fixed.settle waiting).resolve? item = none := by
  induction fixed, waiting using settle.induct with
  | case1 fixed waiting hshrinks ih =>
      obtain ⟨hswept, hgrows, hcovers⟩ := h.sweep hwaiting
      obtain ⟨hsound, hmore, hrest⟩ :=
        ih hswept fun item hitem => hwaiting item ((sweep_sublist fixed waiting).subset hitem)
      rw [Fixed.settle, if_pos hshrinks]
      refine ⟨hsound, List.Subset.trans hgrows hmore, fun item hitem => ?_⟩
      rcases hcovers item hitem with hkept | hcovered
      · exact hrest item hkept
      · exact Or.inl (hcovered.mono hmore)
  | case2 fixed waiting hshrinks =>
      obtain ⟨hsame, hnone⟩ := sweep_eq_self (Nat.not_lt.1 hshrinks)
      rw [Fixed.settle, if_neg hshrinks, hsame]
      exact ⟨h, List.Subset.refl _, fun item hitem => Or.inr (hnone item hitem)⟩

/-- The analysis ends with exactly the variables that the items and the boxes determine. -/
theorem mem_settle_iff
    (waiting : List Item) :
    v ∈ (Fixed.settle ∅ waiting).toList ↔ Determined (· ∈ waiting) v := by
  obtain ⟨hsound, _, hitems⟩ := (sound_empty (· ∈ waiting)).settle fun _ hitem => hitem
  refine ⟨hsound.determined v, fun hv => ?_⟩
  induction hv with
  | alone hitem hright =>
      rcases hitems _ hitem with hcovered | hnone
      · exact hcovered.1
      · obtain ⟨_, _, hsome, _⟩ := resolve?_eq_none_iff.1 hnone
        rw [hright] at hsome
        cases hsome
  | right hitem hright _ ih =>
      rcases hitems _ hitem with hcovered | hnone
      · exact hcovered.2 _ hright
      · exact absurd ih (resolve?_eq_none_iff.1 hnone).1
  | left hitem hright _ ih =>
      rcases hitems _ hitem with hcovered | hnone
      · exact hcovered.1
      · obtain ⟨_, _, hsome, hnot⟩ := resolve?_eq_none_iff.1 hnone
        rw [hright, Option.some.injEq] at hsome
        exact absurd (hsome ▸ ih) hnot
  | box hw hx hne _ _ ihv ihw => exact hsound.boxes _ _ _ hw hx hne ihv ihw

/-- The variables that are fixed and the items that wait after a number of sweeps. -/
def sweeps (start : Fixed × List Item) : Nat → Fixed × List Item
  | 0 => start
  | n + 1 => sweeps (start.1.sweep start.2) n

/-- The analysis takes no more sweeps than there are items, and then one that changes nothing. -/
theorem exists_settle_eq_sweeps
    (fixed : Fixed) (waiting : List Item) :
    ∃ n ≤ waiting.length, fixed.settle waiting = (sweeps (fixed, waiting) n).1 ∧
      sweeps (fixed, waiting) (n + 1) = sweeps (fixed, waiting) n := by
  induction fixed, waiting using settle.induct with
  | case1 fixed waiting hshrinks ih =>
      obtain ⟨n, hn, hsettled, hstable⟩ := ih
      exact ⟨n + 1, by omega, by rw [Fixed.settle, if_pos hshrinks]; exact hsettled, hstable⟩
  | case2 fixed waiting hshrinks =>
      obtain ⟨hsame, _⟩ := sweep_eq_self (Nat.not_lt.1 hshrinks)
      exact ⟨0, Nat.zero_le _, by rw [Fixed.settle, if_neg hshrinks, hsame]; rfl, hsame⟩

end Settle

end Fixed
end LinearLayout
