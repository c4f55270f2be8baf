import LinearLayout.Constraint
import LinearLayout.Settings

/-!
# Intrinsic sizes

An entity may have a natural extent along each axis.  The extent is held to it by two
inequalities, one against growing and one against shrinking, or by one equality where both matter
equally.
-/

namespace LinearLayout

/-- A value for each axis. -/
structure PerAxis (α : Type) where
  horizontal : α
  vertical : α

namespace PerAxis

variable {α : Type}

/-- The same value for both axes. -/
def both (a : α) : PerAxis α :=
  ⟨a, a⟩

/-- The value for an axis. -/
def get (p : PerAxis α) : Axis → α
  | .horizontal => p.horizontal
  | .vertical => p.vertical

/-- Replaces the value for an axis. -/
def set (p : PerAxis α) (axis : Axis) (a : α) : PerAxis α :=
  match axis with
  | .horizontal => { p with horizontal := a }
  | .vertical => { p with vertical := a }

/-- The values for both axes, horizontal first. -/
def toList (p : PerAxis α) : List α :=
  [p.horizontal, p.vertical]

@[simp] theorem get_set_self
    (p : PerAxis α) (axis : Axis) (a : α) :
    (p.set axis a).get axis = a := by
  cases axis <;> rfl

theorem get_set_of_ne
    (p : PerAxis α) {axis other : Axis} (a : α)
    (h : other ≠ axis) :
    (p.set axis a).get other = p.get other := by
  cases axis <;> cases other <;> simp_all [get, set]

end PerAxis

/-- The natural extent of an entity along one axis and how strongly it is kept. -/
structure AxisIntrinsic (K : Type) where
  /-- The measured extent, if there is one. -/
  size : Option K
  /-- How strongly the extent resists growing. -/
  hugging : Priority K
  /-- How strongly the extent resists shrinking. -/
  resistance : Priority K

/-- The natural size of an entity. -/
abbrev IntrinsicSize (K : Type) :=
  PerAxis (AxisIntrinsic K)

namespace AxisIntrinsic

variable {K : Type} [Scalar K]

/-- No measured extent, and the priorities of the settings. -/
def ofSettings (s : IntrinsicSettings K) : AxisIntrinsic K :=
  ⟨none, s.hugging, s.resistance⟩

/-- Both priorities are the same, so one equality says all. -/
def usesEquality (a : AxisIntrinsic K) : Bool :=
  a.hugging.sameAs a.resistance

omit [Scalar K] in
/-- A required priority makes the measured extent binding, so that it has to be known. -/
def requiresMeasurement (a : AxisIntrinsic K) : Bool :=
  a.hugging.isRequired || a.resistance.isRequired

/-- Equality of the sizes and of both priorities, compared as numbers. -/
def sameAs (a b : AxisIntrinsic K) : Bool :=
  (match a.size, b.size with
    | none, none => true
    | some x, some y => x == y
    | _, _ => false) &&
  a.hugging.sameAs b.hugging && a.resistance.sameAs b.resistance

/-- The relations that hold the extent to its size, with their priorities. -/
def bounds (a : AxisIntrinsic K) : List (Relation × Priority K) :=
  if a.usesEquality then [(.equal, a.hugging)]
  else [(.atMost, a.hugging), (.atLeast, a.resistance)]

/-- The constraints that hold the extent of an entity to its size, still without names. -/
def demands (a : AxisIntrinsic K) (e : Entity) (axis : Axis) :
    List (ConstraintId → Constraint K) :=
  match a.size with
  | none => []
  | some x =>
    a.bounds.map fun b id =>
      (Constraint.toValue id ⟨e, axis.extent⟩ b.1 x).withPriority b.2

/-- The constraints that hold the extent of an entity to its size, with new names. -/
def constraints (a : AxisIntrinsic K) (ids : IdSupply) (e : Entity) (axis : Axis) :
    List (Constraint K) × IdSupply :=
  ids.assign (a.demands e axis)

end AxisIntrinsic

namespace IntrinsicSize

variable {K : Type} [Scalar K]

/-- No measured extents, and the priorities of the settings. -/
def ofSettings (s : IntrinsicSettings K) : IntrinsicSize K :=
  PerAxis.both (AxisIntrinsic.ofSettings s)

/-- Equality on both axes. -/
def sameAs (a b : IntrinsicSize K) : Bool :=
  a.horizontal.sameAs b.horizontal && a.vertical.sameAs b.vertical

end IntrinsicSize
end LinearLayout
