/-!
# Entities, attributes and variables

A variable is one attribute of one entity.  On each axis an entity has four attributes that
describe one box: two edges, the extent between them, and the center.
-/

namespace LinearLayout

/-- Something that is laid out; only its number is known here. -/
structure Entity where
  number : Nat
deriving DecidableEq, Hashable, Repr

/-- The two directions of the plane. -/
inductive Axis where
  | horizontal
  | vertical
deriving DecidableEq, Hashable, Repr

/-- What is known of an entity as a number. -/
inductive Attribute where
  | left
  | right
  | top
  | bottom
  | width
  | height
  | centerX
  | centerY
deriving DecidableEq, Hashable, Repr

/-- One attribute of one entity. -/
structure Variable where
  entity : Entity
  attr : Attribute
deriving DecidableEq, Hashable, Repr

namespace Entity

/-- The text of an entity. -/
def text (e : Entity) : String :=
  "entity#" ++ toString e.number

end Entity

namespace Axis

/-- Both axes, horizontal first. -/
def all : List Axis :=
  [.horizontal, .vertical]

/-- The edge that a box starts at. -/
def leading : Axis → Attribute
  | .horizontal => .left
  | .vertical => .top

/-- The edge that a box ends at. -/
def trailing : Axis → Attribute
  | .horizontal => .right
  | .vertical => .bottom

/-- The distance from the leading to the trailing edge. -/
def extent : Axis → Attribute
  | .horizontal => .width
  | .vertical => .height

/-- The middle between the two edges. -/
def center : Axis → Attribute
  | .horizontal => .centerX
  | .vertical => .centerY

/-- The attributes of one box along one axis; any two of them determine the other two. -/
def boxAttributes (axis : Axis) : List Attribute :=
  [axis.leading, axis.trailing, axis.extent, axis.center]

end Axis

namespace Attribute

/-- All attributes in their order. -/
def all : List Attribute :=
  [.left, .right, .top, .bottom, .width, .height, .centerX, .centerY]

/-- The place of an attribute in the order of attributes. -/
def rank : Attribute → Nat
  | .left => 0
  | .right => 1
  | .top => 2
  | .bottom => 3
  | .width => 4
  | .height => 5
  | .centerX => 6
  | .centerY => 7

/-- The axis that an attribute is measured along. -/
def axis : Attribute → Axis
  | .left | .right | .width | .centerX => .horizontal
  | .top | .bottom | .height | .centerY => .vertical

/-- The name of an attribute. -/
def name : Attribute → String
  | .left => "left"
  | .right => "right"
  | .top => "top"
  | .bottom => "bottom"
  | .width => "width"
  | .height => "height"
  | .centerX => "centerX"
  | .centerY => "centerY"

/-- The attribute with a name. -/
def ofName? (s : String) : Option Attribute :=
  all.find? fun a => a.name == s

@[simp] theorem mem_all
    (a : Attribute) :
    a ∈ all := by
  cases a <;> decide

theorem mem_boxAttributes_axis
    (a : Attribute) :
    a ∈ a.axis.boxAttributes := by
  cases a <;> decide

theorem axis_of_mem_boxAttributes
    {a : Attribute} {axis : Axis}
    (h : a ∈ axis.boxAttributes) :
    a.axis = axis := by
  cases axis <;> cases a <;> simp_all [Axis.boxAttributes, Axis.leading, Axis.trailing,
    Axis.extent, Axis.center, Attribute.axis]

@[simp] theorem ofName?_name
    (a : Attribute) :
    ofName? a.name = some a := by
  cases a <;> rfl

end Attribute

namespace Variable

/-- The text of a variable. -/
def text (v : Variable) : String :=
  v.entity.text ++ "." ++ v.attr.name

/-- Variables are ordered by entity, and within an entity by attribute. -/
def order (v w : Variable) : Ordering :=
  (compare v.entity.number w.entity.number).then (compare v.attr.rank w.attr.rank)

/-- The four variables of the box that a variable belongs to. -/
def boxmates (v : Variable) : List Variable :=
  v.attr.axis.boxAttributes.map fun a => ⟨v.entity, a⟩

/-- Variables in ascending order; equal ones keep their places. -/
def sort (vs : List Variable) : List Variable :=
  vs.mergeSort fun v w => (v.order w).isLE

end Variable
end LinearLayout
