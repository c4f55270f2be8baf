import LinearLayout.Row
import LinearLayout.Proofs.OrderedMap.Related

/-!
# Rows over corresponding symbols

A correspondence pairs symbols of the same role one to one.  Rows with equal numbers at
corresponding symbols in the same order stay so under every operation, and all questions about
them have equal answers.
-/

namespace LinearLayout

open Relator

/-- Pairs symbols of the same role one to one, and the objective with itself. -/
structure Symbol.Matching (R : Symbol → Symbol → Prop) : Prop where
  unique : BiUnique R
  role : ∀ x y, R x y → x.role = y.role
  objective : R .objective .objective

namespace Symbol.Matching

variable {R : Symbol → Symbol → Prop} {x y : Symbol}

theorem isFree
    (h : Matching R) (hxy : R x y) :
    x.isFree = y.isFree := by
  rw [Symbol.isFree, Symbol.isFree, h.role x y hxy]

theorem isSlack
    (h : Matching R) (hxy : R x y) :
    x.isSlack = y.isSlack := by
  rw [Symbol.isSlack, Symbol.isSlack, h.role x y hxy]

theorem isDummy
    (h : Matching R) (hxy : R x y) :
    x.isDummy = y.isDummy := by
  rw [Symbol.isDummy, Symbol.isDummy, h.role x y hxy]

theorem isObjective
    (h : Matching R) (hxy : R x y) :
    x.isObjective = y.isObjective := by
  rw [Symbol.isObjective, Symbol.isObjective, h.role x y hxy]

theorem isRestricted
    (h : Matching R) (hxy : R x y) :
    x.isRestricted = y.isRestricted := by
  rw [Symbol.isRestricted, Symbol.isRestricted, h.isSlack hxy, h.isDummy hxy]

end Symbol.Matching

namespace Row

variable {K : Type} {R Q : Symbol → Symbol → Prop} {r r' p p' : Row K} {x y : Symbol}

/-- The same numbers at corresponding symbols in the same order. -/
structure Related (R : Symbol → Symbol → Prop) (r r' : Row K) : Prop where
  constant : r.constant = r'.constant
  cells : OrderedMap.Related R Eq r.cells r'.cells

theorem related_ofConstant
    (c : K) :
    Related R (ofConstant c) (ofConstant c) :=
  ⟨rfl, OrderedMap.related_empty⟩

theorem Related.imp
    (h : Related R r r')
    (hRQ : ∀ x y, R x y → Q x y) :
    Related Q r r' :=
  ⟨h.constant, h.cells.imp hRQ fun _ _ h => h⟩

theorem related_eq_iff :
    Related Eq r r' ↔ r = r' := by
  constructor
  · rintro ⟨hconstant, hcells⟩
    obtain ⟨_, _⟩ := r
    obtain ⟨_, _⟩ := r'
    cases hconstant
    cases OrderedMap.related_eq_iff.1 hcells
    rfl
  · rintro rfl
    exact ⟨rfl, OrderedMap.related_eq_iff.2 rfl⟩

theorem Related.symbols
    (h : Related R r r') :
    List.Forall₂ R r.symbols r'.symbols :=
  h.cells.keys

theorem Related.isConstant
    (h : Related R r r') :
    r.isConstant = r'.isConstant :=
  h.cells.isEmpty

section Questions

variable (h : Related R r r') (hR : BiUnique R) (hxy : R x y)

include h hR hxy

theorem Related.get?
    : r.cells.get? x = r'.cells.get? y := by
  rcases cases_of_rel (h.cells.get? hR hxy) with ⟨hx, hy⟩ | ⟨c, c', hx, hy, hc⟩
  · rw [hx, hy]
  · rw [hx, hy, hc]

theorem Related.mentions :
    r.mentions x = r'.mentions y :=
  h.cells.contains hR hxy

theorem Related.without :
    Related R (r.without x) (r'.without y) :=
  ⟨h.constant, h.cells.erase hR hxy⟩

variable [Scalar K]

theorem Related.coefficient :
    r.coefficient x = r'.coefficient y := by
  rw [Row.coefficient, Row.coefficient, h.get? hR hxy]

theorem Related.reciprocal :
    r.reciprocal x = r'.reciprocal y := by
  rw [Row.reciprocal, Row.reciprocal, h.get? hR hxy]

theorem Related.addTerm
    (k : K) :
    Related R (r.addTerm x k) (r'.addTerm y k) := by
  refine ⟨h.constant, h.cells.alter hR hxy fun o o' ho => ?_⟩
  have heq : o = o' := by
    cases ho with
    | none => rfl
    | some hab => rw [hab]
  rw [heq]
  cases accumulate k o' with
  | none => exact Option.Rel.none
  | some c => exact Option.Rel.some rfl

end Questions

variable [Scalar K]

theorem Related.scale
    (h : Related R r r')
    (k : K) :
    Related R (r.scale k) (r'.scale k) :=
  ⟨congrArg (· * k) h.constant, h.cells.mapValues fun _ _ ha => congrArg (· * k) ha⟩

theorem Related.addRow
    (h : Related R r r')
    (hR : BiUnique R)
    (hp : Related R p p')
    (k : K) :
    Related R (r.addRow p k) (r'.addRow p' k) := by
  unfold Row.addRow Row.addTerms
  refine List.rel_foldl (P := Related R) ?_ ?_ hp.cells
  · intro q q' hq e e' he
    dsimp only
    rw [he.2]
    exact hq.addTerm hR he.1 _
  · refine ⟨?_, h.cells⟩
    rw [h.constant, hp.constant]

theorem Related.substitute
    (h : Related R r r')
    (hR : BiUnique R)
    (hxy : R x y)
    (hp : Related R p p') :
    Related R (r.substitute x p) (r'.substitute y p') := by
  rw [Row.substitute, Row.substitute, ← h.get? hR hxy]
  cases r.cells.get? x with
  | none => exact h
  | some k => exact (h.without hR hxy).addRow hR hp k

theorem Related.solveFor
    (h : Related R r r')
    (hR : BiUnique R)
    (hxy : R x y) :
    Related R (r.solveFor x) (r'.solveFor y) := by
  rw [Row.solveFor, Row.solveFor, h.reciprocal hR hxy]
  exact (h.without hR hxy).scale _

theorem Related.exchange
    {leaving leaving' entering entering' : Symbol}
    (h : Related R r r')
    (hR : BiUnique R)
    (hleaving : R leaving leaving')
    (hentering : R entering entering') :
    Related R (r.exchange leaving entering) (r'.exchange leaving' entering') := by
  have hsolved := h.solveFor hR hentering
  exact ⟨hsolved.constant, hsolved.cells.insert hR hleaving (h.reciprocal hR hentering)⟩

end Row
end LinearLayout
