import LinearLayout.Scalar
import LinearLayout.Decimal.Plain

/-!
# Priorities

A required constraint holds exactly or is rejected.  A preferred one may be violated; every unit
of violation costs its weight.  A `Priority` holds whatever weight it was given, a `Strength` only
weights in the allowed range, and `Priority.strength` leads from one to the other.
-/

namespace LinearLayout

/-- How much a constraint matters, with any weight. -/
inductive Priority (K : Type) where
  | required
  | preferred (weight : K)
deriving DecidableEq, Repr

namespace Priority

variable {K : Type} [Scalar K]

/-- A strong preference. -/
def high : Priority K :=
  .preferred (750 : Nat)

/-- A preference of middle strength. -/
def medium : Priority K :=
  .preferred (500 : Nat)

/-- A weak preference. -/
def low : Priority K :=
  .preferred (250 : Nat)

/-- The weakest of the named preferences. -/
def lowest : Priority K :=
  .preferred 1

instance : Inhabited (Priority K) :=
  ⟨.required⟩

/-- A preference whose weight is moved into the allowed range. -/
def clamped (weight : K) : Priority K :=
  .preferred (Scalar.clampWeight weight)

/-- The same priority with its weight moved into the allowed range. -/
def normalized : Priority K → Priority K
  | .required => .required
  | .preferred w => clamped w

/-- Equality of kind and, for preferences, of weights as numbers. -/
def sameAs : Priority K → Priority K → Bool
  | .required, .required => true
  | .preferred v, .preferred w => v == w
  | _, _ => false

omit [Scalar K] in
/-- True of the required priority. -/
def isRequired : Priority K → Bool
  | .required => true
  | .preferred _ => false

omit [Scalar K] in
/-- The weight of a preference. -/
def weight? : Priority K → Option K
  | .required => none
  | .preferred w => some w

/-- The text of a priority: its weight, or the word for a required one. -/
def text : Priority Float → String
  | .required => "required"
  | .preferred w => numberText w

@[simp] theorem isRequired_normalized
    (p : Priority K) :
    p.normalized.isRequired = p.isRequired := by
  cases p <;> rfl

end Priority

/-- A priority as an equation carries it: its weight is in the allowed range. -/
structure Strength (K : Type) [Scalar K] where
  priority : Priority K
  /-- The weight is the outcome of a clamp. -/
  exists_normalized_eq : ∃ p : Priority K, p.normalized = priority

namespace Strength

variable {K : Type} [Scalar K]

/-- The strength of constraints that hold exactly. -/
def required : Strength K :=
  ⟨.required, .required, rfl⟩

instance : Inhabited (Strength K) :=
  ⟨required⟩

/-- True of the required strength. -/
def isRequired (s : Strength K) : Bool :=
  s.priority.isRequired

/-- The cost of one unit of violation. -/
def weight? (s : Strength K) : Option K :=
  s.priority.weight?

/-- The text of a strength. -/
def text (s : Strength Float) : String :=
  s.priority.text

end Strength

/-- The strength that a priority amounts to. -/
def Priority.strength {K : Type} [Scalar K] (p : Priority K) : Strength K :=
  ⟨p.normalized, p, rfl⟩

end LinearLayout
