import LinearLayout.Equation

/-!
# Constraints

A constraint relates pairs of variables, or variables and a constant.  Its items share a
multiplier, an offset and a strength, and every item becomes one equation.
-/

namespace LinearLayout

/-- The name of a constraint. -/
structure ConstraintId where
  number : Nat
deriving DecidableEq, Repr

/-- The text of a constraint's name. -/
def ConstraintId.text (id : ConstraintId) : String :=
  "constraint#" ++ toString id.number

/-- Gives out names, each of them once. -/
structure IdSupply where
  /-- The number of the next name. -/
  next : Nat := 1

namespace IdSupply

/-- The next name and the supply without it. -/
def take (ids : IdSupply) : ConstraintId × IdSupply :=
  (⟨ids.next⟩, ⟨ids.next + 1⟩)

/-- Gives a name to every member of a list, in order. -/
def assign {α : Type} (ids : IdSupply) : List (ConstraintId → α) → List α × IdSupply
  | [] => ([], ids)
  | f :: fs =>
    let (id, ids) := ids.take
    let (rest, ids) := ids.assign fs
    (f id :: rest, ids)

end IdSupply

/--
One relation of a constraint: `left` against `multiplier * right + offset`, or, without a right
side, against the offset alone.
-/
structure Item where
  left : Variable
  relation : Relation
  right : Option Variable
deriving DecidableEq, Repr

/-- The entities that an item speaks of. -/
def Item.entities (item : Item) : List Entity :=
  item.left.entity :: (item.right.map Variable.entity).toList

/-- Relations that share a multiplier, an offset and a strength. -/
structure Constraint (K : Type) [Scalar K] where
  id : ConstraintId
  /-- The entity to whose constraints this one belongs. -/
  owner : Entity
  items : List Item
  multiplier : K
  offset : K
  strength : Strength K

/-- New values for some of what the items of a constraint share. -/
structure Edit (K : Type) where
  multiplier : Option K := none
  offset : Option K := none
  priority : Option (Priority K) := none

namespace Constraint

variable {K : Type} [Scalar K]

/-- A required constraint with multiplier one and offset zero. -/
def new (id : ConstraintId) (owner : Entity) (items : List Item) : Constraint K :=
  ⟨id, owner, items, 1, 0, .required⟩

/-- A relation between two variables, owned by the entity of the left one. -/
def between (id : ConstraintId) (left : Variable) (relation : Relation) (right : Variable) :
    Constraint K :=
  new id left.entity [⟨left, relation, some right⟩]

/-- Replaces the multiplier. -/
def withMultiplier (c : Constraint K) (k : K) : Constraint K :=
  { c with multiplier := k }

/-- Replaces the multiplier by one over a number. -/
def dividedBy (c : Constraint K) (k : K) : Constraint K :=
  c.withMultiplier (1 / k)

/-- Replaces the offset. -/
def withOffset (c : Constraint K) (x : K) : Constraint K :=
  { c with offset := x }

/-- Replaces the strength; a weight is moved into the allowed range. -/
def withPriority (c : Constraint K) (p : Priority K) : Constraint K :=
  { c with strength := p.strength }

/-- A relation between a variable and a number, owned by the entity of the variable. -/
def toValue (id : ConstraintId) (v : Variable) (relation : Relation) (x : K) : Constraint K :=
  (new id v.entity [⟨v, relation, none⟩]).withOffset x

/-- Applies new values. -/
def edit (c : Constraint K) (e : Edit K) : Constraint K :=
  { c with
    multiplier := e.multiplier.getD c.multiplier
    offset := e.offset.getD c.offset
    strength := (e.priority.map Priority.strength).getD c.strength }

/-- New values are an edit of constraints. -/
instance : CoeFun (Edit K) fun _ => Constraint K → Constraint K :=
  ⟨fun e c => c.edit e⟩

/-- The owner, then the entities of the items in order. -/
def entities (c : Constraint K) : List Entity :=
  c.owner :: c.items.flatMap Item.entities

/--
A fixing constraint is required and consists of equalities, so that each side of an item
determines the other.
-/
def isFixing (c : Constraint K) : Bool :=
  c.strength.isRequired && c.items.all fun item => item.relation == .equal

/-- The equation of one item. -/
def equation (c : Constraint K) (item : Item) : Equation K where
  terms := ⟨1, item.left⟩ :: (item.right.map fun right => ⟨-c.multiplier, right⟩).toList
  relation := item.relation
  constant := c.offset
  strength := c.strength

/-- The equations of all items in order. -/
def equations (c : Constraint K) : List (Equation K) :=
  c.items.map c.equation

/-- The text of one item of a constraint. -/
def itemText (c : Constraint Float) (item : Item) : String :=
  let left := item.left.text ++ " " ++ item.relation.text ++ " "
  match item.right with
  | none => left ++ numberText c.offset
  | some right =>
    left ++ right.text ++ " * " ++ numberText c.multiplier ++ " + " ++ numberText c.offset

/-- The text of a constraint: its items and its strength. -/
def text (c : Constraint Float) : String :=
  "; ".intercalate (c.items.map c.itemText) ++ " @" ++ c.strength.text

end Constraint
end LinearLayout
