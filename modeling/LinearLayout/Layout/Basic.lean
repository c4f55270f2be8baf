import LinearLayout.Intrinsic
import LinearLayout.Necessity
import LinearLayout.Solver.Remove

/-!
# Layouts

A layout manages a group of entities and the constraints on them, all in one solver.  Every
managed entity has the equations of its box, an intrinsic size with the constraints made from it,
and the constraints that it owns.  The constraints that the layout installed by itself, for pinned
values and for intrinsic sizes, are its system constraints.
-/

namespace LinearLayout

/-- What a layout keeps of an entity. -/
structure ManagedEntity (K : Type) where
  /-- The equations of the entity's box. -/
  boxKeys : List EquationKey
  intrinsic : IntrinsicSize K
  /-- The constraints installed for the intrinsic size. -/
  sizeConstraints : PerAxis (List ConstraintId)

/-- A constraint in force, with its equations. -/
structure ActiveConstraint (K : Type) [Scalar K] where
  constraint : Constraint K
  keys : List EquationKey

/-- A group of entities with the constraints on them. -/
structure Layout (K : Type) [Scalar K] where
  settings : Settings K
  solver : Solver K
  entities : OrderedMap Entity (ManagedEntity K)
  constraints : OrderedMap ConstraintId (ActiveConstraint K)
  /-- The constraints that every entity owns. -/
  owned : OrderedMap Entity (OrderedSet ConstraintId)
  /-- The constraints that the layout installed by itself. -/
  system : OrderedSet ConstraintId
  /-- The constraints that hold the pinned variables. -/
  pins : OrderedMap Variable ConstraintId
  necessity : Necessity

/-- Why a layout refuses. -/
inductive LayoutError (K : Type) [Scalar K] where
  /-- A constraint speaks of an entity that is not managed. -/
  | notManaged (e : Entity)
  /-- A constraint contradicts the required constraints that are installed. -/
  | infeasible (c : Constraint K) (cause : SolverError)
  /-- No active constraint has this name. -/
  | unknownConstraint (id : ConstraintId)

/-- The text of a refusal. -/
def LayoutError.message : LayoutError Float → String
  | .notManaged e => e.text ++ " is not managed by this constraint manager"
  | .infeasible c cause =>
    c.id.text ++ " cannot be satisfied: " ++ c.text ++ ": " ++ cause.message
  | .unknownConstraint id => id.text ++ " is not active in this constraint manager"

namespace Layout

variable {K : Type} [Scalar K]

/-- A layout without entities. -/
def new (settings : Settings K) : Layout K where
  settings := settings
  solver := .new settings.solver
  entities := ∅
  constraints := ∅
  owned := ∅
  system := ∅
  pins := ∅
  necessity := ∅

/-- True if the layout manages the entity. -/
def isManaged (l : Layout K) (e : Entity) : Bool :=
  l.entities.contains e

/-- The managed entities in the order in which they were added. -/
def managed (l : Layout K) : List Entity :=
  l.entities.keys

/-- The number of active constraints, system constraints included. -/
def size (l : Layout K) : Nat :=
  l.constraints.size

/-- True if no constraint is active. -/
def isEmpty (l : Layout K) : Bool :=
  l.constraints.isEmpty

/-- True if a constraint of this name is in force. -/
def isActive (l : Layout K) (id : ConstraintId) : Bool :=
  l.constraints.contains id

/-- The active constraint of a name. -/
def constraint? (l : Layout K) (id : ConstraintId) : Option (Constraint K) :=
  (l.constraints.get? id).map ActiveConstraint.constraint

/-- The names of the constraints that an entity owns. -/
def ownedBy (l : Layout K) (e : Entity) : List ConstraintId :=
  ((l.owned.get? e).getD ∅).toList

/-- The active constraints that an entity owns, in order. -/
def constraintsOf (l : Layout K) (e : Entity) : List (Constraint K) :=
  (l.ownedBy e).filterMap l.constraint?

/-- The value of a variable. -/
def value (l : Layout K) (v : Variable) : K :=
  l.solver.value v

/-- The intrinsic size of a managed entity. -/
def intrinsic? (l : Layout K) (e : Entity) : Option (IntrinsicSize K) :=
  (l.entities.get? e).map ManagedEntity.intrinsic

/-- The active constraint that holds a pinned variable. -/
def pin? (l : Layout K) (v : Variable) : Option ConstraintId :=
  (l.pins.get? v).filter l.isActive

/-- The first entity of a constraint that is not managed. -/
def unmanaged? (l : Layout K) (c : Constraint K) : Option Entity :=
  c.entities.find? fun e => !l.isManaged e

/-- Whether the extent of an entity along an axis has to be measured; only of managed entities. -/
def needsSize (l : Layout K) (e : Entity) (axis : Axis) : Bool × Layout K :=
  if l.isManaged e then
    let (needed, necessity) := l.necessity.needsSize e axis
    (needed, { l with necessity := necessity })
  else (false, l)

end Layout
end LinearLayout
