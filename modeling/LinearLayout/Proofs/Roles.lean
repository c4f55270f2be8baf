import LinearLayout.Symbol

/-!
# Roles

Every symbol is an unknown, an objective, or restricted, and the restricted ones are slacks and
dummies.
-/

namespace LinearLayout
namespace Symbol

variable {s t : Symbol}

theorem isRestricted_iff :
    s.isRestricted = true ↔ s.isFree = false ∧ s.isObjective = false := by
  obtain ⟨i, role⟩ := s
  cases role <;> simp [isRestricted, isSlack, isDummy, isFree, isObjective]

theorem isObjective_of_isRestricted
    (h : s.isRestricted = true) :
    s.isObjective = false :=
  (isRestricted_iff.1 h).2

theorem isObjective_of_isFree
    (h : s.isFree = true) :
    s.isObjective = false := by
  obtain ⟨i, role⟩ := s
  cases role <;> simp_all [isFree, isObjective]

theorem isRestricted_of_isSlack
    (h : s.isSlack = true) :
    s.isRestricted = true := by
  simp [isRestricted, h]

theorem isRestricted_of_isDummy
    (h : s.isDummy = true) :
    s.isRestricted = true := by
  simp [isRestricted, h]

theorem isObjective_of_isSlack
    (h : s.isSlack = true) :
    s.isObjective = false :=
  isObjective_of_isRestricted (isRestricted_of_isSlack h)

theorem isObjective_of_isDummy
    (h : s.isDummy = true) :
    s.isObjective = false :=
  isObjective_of_isRestricted (isRestricted_of_isDummy h)

theorem isFree_of_isObjective
    (h : s.isObjective = true) :
    s.isFree = false := by
  obtain ⟨i, role⟩ := s
  cases role <;> simp_all [isObjective, isFree]

theorem isSlack_eq_false_of_isDummy
    (h : s.isDummy = true) :
    s.isSlack = false := by
  obtain ⟨i, role⟩ := s
  cases role <;> simp_all [isSlack, isDummy]

theorem isDummy_eq_false_of_isSlack
    (h : s.isSlack = true) :
    s.isDummy = false := by
  obtain ⟨i, role⟩ := s
  cases role <;> simp_all [isSlack, isDummy]

theorem isDummy_eq_false_of_isFree
    (h : s.isFree = true) :
    s.isDummy = false := by
  obtain ⟨i, role⟩ := s
  cases role <;> simp_all [isFree, isDummy]

theorem isDummy_eq_false_of_isObjective
    (h : s.isObjective = true) :
    s.isDummy = false := by
  obtain ⟨i, role⟩ := s
  cases role <;> simp_all [isObjective, isDummy]

theorem ne_of_isObjective
    (hs : s.isObjective = false)
    (ht : t.isObjective = true) :
    s ≠ t := by
  rintro rfl
  rw [hs] at ht
  cases ht

theorem isSlack_or_isDummy
    (h : s.isRestricted = true) :
    s.isSlack = true ∨ s.isDummy = true := by
  simpa [isRestricted] using h

end Symbol
end LinearLayout
