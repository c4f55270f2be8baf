import LinearLayout.Proofs.Row.Related
import LinearLayout.Proofs.Tableau.Removal

/-!
# Tableaux over corresponding symbols

Two tableaux are related if their rows correspond in order and the columns of corresponding
symbols list corresponding rows in order.  Pivots are chosen by role, by order and by number
alone, so related tableaux go through the same pivots and stay related, whatever the arithmetic.
-/

namespace LinearLayout

open Relator

variable {K : Type} {R Q : Symbol → Symbol → Prop} {x y b b' : Symbol}

namespace Columns

variable {c c' : Columns}

/-- The columns of corresponding symbols list corresponding rows. -/
def Related (R : Symbol → Symbol → Prop) (c c' : Columns) : Prop :=
  ∀ x y, R x y → List.Forall₂ R (c.column x).toList (c'.column y).toList

section Changes

variable (h : Related R c c') (hR : BiUnique R) (hxy : R x y)

include h hR hxy

theorem Related.erase :
    Related R (c.erase x) (c'.erase y) := by
  intro i j hij
  have hcolumn : ∀ (d : Columns) (s z : Symbol),
      Columns.column (d.erase s) z = if s = z then ∅ else d.column z := by
    intro d s z
    simp only [column, Std.TreeMap.getD_erase, order_eq_iff]
  rw [hcolumn, hcolumn]
  by_cases hxi : x = i
  · rw [if_pos hxi, if_pos ((rel_eq hR hxy hij).1 hxi)]
    exact List.Forall₂.nil
  · rw [if_neg hxi, if_neg fun hyj => hxi ((rel_eq hR hxy hij).2 hyj)]
    exact h i j hij

variable (hb : R b b')

include hb

theorem Related.link :
    Related R (c.link x b) (c'.link y b') := by
  intro i j hij
  rw [column_link, column_link]
  by_cases hxi : x = i
  · rw [if_pos hxi, if_pos ((rel_eq hR hxy hij).1 hxi)]
    exact OrderedSet.insert_related hR hb (h x y hxy)
  · rw [if_neg hxi, if_neg fun hyj => hxi ((rel_eq hR hxy hij).2 hyj)]
    exact h i j hij

theorem Related.unlink :
    Related R (c.unlink x b) (c'.unlink y b') := by
  intro i j hij
  rw [column_unlink, column_unlink]
  by_cases hxi : x = i
  · rw [if_pos hxi, if_pos ((rel_eq hR hxy hij).1 hxi)]
    exact erase_related hR hb (h x y hxy)
  · rw [if_neg hxi, if_neg fun hyj => hxi ((rel_eq hR hxy hij).2 hyj)]
    exact h i j hij

theorem Related.align
    {row row' : Row K}
    (hrow : Row.Related R row row') :
    Related R (align b row c x) (align b' row' c' y) := by
  unfold Columns.align
  rw [hrow.mentions hR hxy]
  split
  · exact h.link hR hxy hb
  · exact h.unlink hR hxy hb

end Changes

variable {row row' : Row K} {touched touched' : List Symbol}

theorem Related.foldl_align
    (h : Related R c c')
    (hR : BiUnique R)
    (hb : R b b')
    (hrow : Row.Related R row row')
    (htouched : List.Forall₂ R touched touched') :
    Related R (touched.foldl (Columns.align b row) c) (touched'.foldl (Columns.align b' row') c') :=
  List.rel_foldl (fun _ _ hc _ _ hxy => hc.align hR hxy hb hrow) h htouched

theorem Related.alignStored
    {rows rows' : OrderedMap Symbol (Row K)}
    (h : Related R c c')
    (hR : BiUnique R)
    (hb : R b b')
    (hrows : OrderedMap.Related R (Row.Related R) rows rows')
    (htouched : List.Forall₂ R touched touched') :
    Related R (alignStored rows touched c b) (alignStored rows' touched' c' b') := by
  unfold Columns.alignStored
  rcases cases_of_rel (hrows.get? hR hb) with ⟨hnone, hnone'⟩ | ⟨row, row', hrow, hrow', hr⟩
  · rw [hnone, hnone']
    exact h
  · rw [hrow, hrow']
    exact h.foldl_align hR hb hr htouched

end Columns

namespace Tableau

variable {t t' : Tableau K} {row row' : Row K} {k : K}

/-- Rows correspond in order, and so do the columns of corresponding symbols. -/
structure Related (R : Symbol → Symbol → Prop) (t t' : Tableau K) : Prop where
  rows : OrderedMap.Related R (Row.Related R) t.rows t'.rows
  columns : Columns.Related R t.columns t'.columns

theorem related_empty :
    Related R (∅ : Tableau K) ∅ :=
  ⟨OrderedMap.related_empty, fun _ _ _ => List.Forall₂.nil⟩

/-- One more pair of symbols that no row mentions makes no difference. -/
theorem Related.extend
    (h : Related R t t')
    (hx : t.column x = [])
    (hy : t'.column y = []) :
    Related (fun i j => R i j ∨ (i = x ∧ j = y)) t t' := by
  have hmono : ∀ i j, R i j → R i j ∨ (i = x ∧ j = y) := fun _ _ hij => Or.inl hij
  refine ⟨h.rows.imp hmono fun _ _ hr => hr.imp hmono, fun i j hij => ?_⟩
  rcases hij with hij | ⟨rfl, rfl⟩
  · exact (h.columns i j hij).imp hmono
  · change List.Forall₂ _ (t.column i) (t'.column j)
    rw [hx, hy]
    exact List.Forall₂.nil

section Changes

variable (h : Related R t t') (hR : BiUnique R)

include h

theorem Related.column
    (hxy : R x y) :
    List.Forall₂ R (t.column x) (t'.column y) :=
  h.columns x y hxy

theorem Related.isReferenced
    (hxy : R x y) :
    t.isReferenced x = t'.isReferenced y := by
  rw [Tableau.isReferenced, Tableau.isReferenced, isEmpty_related (h.column hxy)]

include hR

theorem Related.row?
    (hb : R b b') :
    Option.Rel (Row.Related R) (t.row? b) (t'.row? b') :=
  h.rows.get? hR hb

theorem Related.addRow
    (hb : R b b')
    (hrow : Row.Related R row row') :
    Related R (t.addRow b row) (t'.addRow b' row') :=
  ⟨h.rows.insert hR hb hrow, h.columns.foldl_align hR hb hrow hrow.symbols⟩

/-- A row can be removed from both tableaux or from none. -/
theorem Related.removeRow
    (hb : R b b') :
    (t.removeRow b = none ∧ t'.removeRow b' = none) ∨
      ∃ row row' u u', t.removeRow b = some (row, u) ∧ t'.removeRow b' = some (row', u') ∧
        Row.Related R row row' ∧ Related R u u' := by
  unfold Tableau.removeRow
  rcases cases_of_rel (h.row? hR hb) with ⟨hnone, hnone'⟩ | ⟨row, row', hrow, hrow', hr⟩
  · rw [hnone, hnone']
    exact Or.inl ⟨rfl, rfl⟩
  · rw [hrow, hrow']
    refine Or.inr ⟨row, row', _, _, rfl, rfl, hr, h.rows.erase hR hb,
      List.rel_foldl (R := R) (P := Columns.Related R) ?_ h.columns hr.symbols⟩
    exact fun _ _ hc _ _ hxy => hc.unlink hR hxy hb

theorem Related.removeColumn
    (hxy : R x y) :
    Related R (t.removeColumn x) (t'.removeColumn y) :=
  ⟨h.rows.mapValues fun _ _ hr => hr.without hR hxy, h.columns.erase hR hxy⟩

variable [Scalar K]

theorem Related.substitute
    (hxy : R x y)
    (hrow : Row.Related R row row') :
    Related R (t.substitute x row) (t'.substitute y row') := by
  have hrows := h.rows.mapValues fun _ _ hr => hr.substitute hR hxy hrow
  refine ⟨hrows, List.rel_foldl (R := R) (P := Columns.Related R) ?_ (h.columns.erase hR hxy)
    (h.column hxy)⟩
  exact fun _ _ hc _ _ hb => hc.alignStored hR hb hrows hrow.symbols

theorem Related.pivot
    {entering entering' leaving leaving' : Symbol}
    (hentering : R entering entering')
    (hleaving : R leaving leaving') :
    Related R (t.pivot entering leaving) (t'.pivot entering' leaving') := by
  unfold Tableau.pivot
  rcases h.removeRow hR hleaving with ⟨hnone, hnone'⟩ | ⟨row, row', u, u', hu, hu', hrow, hrest⟩
  · rw [hnone, hnone']
    exact h
  · rw [hu, hu']
    have hsolved := hrow.exchange hR hleaving hentering
    exact (hrest.substitute hR hentering hsolved).addRow hR hentering hsolved

theorem Related.addTermTo
    (hb : R b b')
    (hxy : R x y) :
    Related R (t.addTermTo b x k) (t'.addTermTo b' y k) := by
  unfold Tableau.addTermTo
  rcases cases_of_rel (h.row? hR hb) with ⟨hnone, hnone'⟩ | ⟨row, row', hrow, hrow', hr⟩
  · rw [hnone, hnone']
    exact h
  · rw [hrow, hrow']
    have hadded := hr.addTerm hR hxy k
    exact ⟨h.rows.insert hR hb hadded,
      h.columns.foldl_align hR hb hadded (List.Forall₂.cons hxy List.Forall₂.nil)⟩

theorem Related.addRowTo
    {other other' : Row K}
    (hb : R b b')
    (hother : Row.Related R other other') :
    Related R (t.addRowTo b other k) (t'.addRowTo b' other' k) := by
  unfold Tableau.addRowTo
  rcases cases_of_rel (h.row? hR hb) with ⟨hnone, hnone'⟩ | ⟨row, row', hrow, hrow', hr⟩
  · rw [hnone, hnone']
    exact h
  · rw [hrow, hrow']
    have hadded := hr.addRow hR hother k
    exact ⟨h.rows.insert hR hb hadded, h.columns.foldl_align hR hb hadded hother.symbols⟩

end Changes

end Tableau
end LinearLayout
