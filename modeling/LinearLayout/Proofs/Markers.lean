import LinearLayout.Solver.Markers
import LinearLayout.Equation
import LinearLayout.Proofs.Roles

/-!
# Which symbols an equation brings

The relation of an equation and whether it is required decide the kind of its markers, and the
kind decides the roles.
-/

namespace LinearLayout

/-- The objective of a first phase is the only symbol that does not stay. -/
def Symbol.Ordinary (s : Symbol) : Prop :=
  s.isObjective = true → s = .objective

theorem Symbol.ordinary_of_isObjective
    {s : Symbol}
    (h : s.isObjective = false) :
    s.Ordinary := by
  simp [Symbol.Ordinary, h]

namespace Markers

variable {markers : Markers} {s : Symbol}

/-- All symbols that an equation brought with it. -/
def symbols : Markers → List Symbol
  | rigid dummy => [dummy]
  | elastic plus minus => [plus, minus]
  | bounded slack => [slack]
  | yielding slack error => [slack, error]

/-- Dummies hold equalities, all other symbols are slacks. -/
def Proper : Markers → Prop
  | rigid dummy => dummy.isDummy = true
  | elastic plus minus => plus.isSlack = true ∧ minus.isSlack = true
  | bounded slack => slack.isSlack = true
  | yielding slack error => slack.isSlack = true ∧ error.isSlack = true

/-- The kind of markers that an equation needs. -/
def Fits {K : Type} [Scalar K] (markers : Markers) (e : Equation K) : Prop :=
  markers.Proper ∧
    match markers with
    | rigid _ => e.relation = .equal ∧ e.strength.isRequired = true
    | elastic _ _ => e.relation = .equal ∧ e.strength.isRequired = false
    | bounded _ => e.relation ≠ .equal ∧ e.strength.isRequired = true
    | yielding _ _ => e.relation ≠ .equal ∧ e.strength.isRequired = false

theorem marker_mem_symbols
    (markers : Markers) :
    markers.marker ∈ markers.symbols := by
  cases markers <;> simp [marker, symbols]

theorem mem_symbols_of_mem_errors
    (h : s ∈ markers.errors) :
    s ∈ markers.symbols := by
  cases markers <;> simp_all [errors, symbols]

theorem Proper.isRestricted
    (h : markers.Proper)
    (hs : s ∈ markers.symbols) :
    s.isRestricted = true := by
  cases markers with
  | rigid dummy =>
      cases List.mem_singleton.1 hs
      exact Symbol.isRestricted_of_isDummy h
  | elastic plus minus =>
      simp only [symbols, List.mem_cons, List.not_mem_nil, or_false] at hs
      rcases hs with rfl | rfl
      · exact Symbol.isRestricted_of_isSlack h.1
      · exact Symbol.isRestricted_of_isSlack h.2
  | bounded slack =>
      cases List.mem_singleton.1 hs
      exact Symbol.isRestricted_of_isSlack h
  | yielding slack error =>
      simp only [symbols, List.mem_cons, List.not_mem_nil, or_false] at hs
      rcases hs with rfl | rfl
      · exact Symbol.isRestricted_of_isSlack h.1
      · exact Symbol.isRestricted_of_isSlack h.2

theorem Proper.isRestricted_of_mem_errors
    (h : markers.Proper)
    (hs : s ∈ markers.errors) :
    s.isRestricted = true :=
  h.isRestricted (mem_symbols_of_mem_errors hs)

theorem Proper.isObjective
    (h : markers.Proper)
    (hs : s ∈ markers.symbols) :
    s.isObjective = false :=
  Symbol.isObjective_of_isRestricted (h.isRestricted hs)

theorem Proper.ordinary
    (h : markers.Proper)
    (hs : s ∈ markers.symbols) :
    s.Ordinary :=
  Symbol.ordinary_of_isObjective (h.isObjective hs)

end Markers
end LinearLayout
