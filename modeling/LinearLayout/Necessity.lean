import LinearLayout.Constraint
import LinearLayout.OrderedMap.Lemmas
import LinearLayout.OrderedSet

/-!
# Which sizes need to be measured

A variable is fixed if the fixing constraints and the boxes of the entities determine its value.
An item fixes its left side when it has no right side, either side fixes the other, and two
attributes of a box fix the remaining two.  An extent that is fixed need not be measured, unless a
priority makes the measured size binding.

Changes are collected and the fixed variables are computed again at the next question.
-/

namespace LinearLayout

/-- The variables known to be fixed. -/
abbrev Fixed :=
  OrderedSet Variable

namespace Fixed

/-- Marks a variable; once two of a box are marked, all four are. -/
def mark (fixed : Fixed) (v : Variable) : Fixed :=
  if fixed.contains v then fixed
  else
    let marked := fixed.insert v
    if 2 ≤ (v.boxmates.filter marked.contains).length then marked.insertAll v.boxmates
    else marked

/-- Lets an item fix what it can; `none` if neither side is fixed yet. -/
def resolve? (fixed : Fixed) (item : Item) : Option Fixed :=
  if fixed.contains item.left then
    match item.right with
    | none => some fixed
    | some right => some (fixed.mark right)
  else
    match item.right with
    | none => some (fixed.mark item.left)
    | some right => if fixed.contains right then some (fixed.mark item.left) else none

/-- Goes through the items once and keeps those that could not be applied. -/
def sweep (fixed : Fixed) : List Item → Fixed × List Item
  | [] => (fixed, [])
  | item :: items =>
    match fixed.resolve? item with
    | some fixed => sweep fixed items
    | none =>
      let (fixed, kept) := sweep fixed items
      (fixed, item :: kept)

/-- Sweeps until a sweep applies nothing. -/
def settle (fixed : Fixed) (items : List Item) : Fixed :=
  if (fixed.sweep items).2.length < items.length then
    settle (fixed.sweep items).1 (fixed.sweep items).2
  else (fixed.sweep items).1
termination_by items.length

/-- A sweep keeps items and adds none. -/
theorem sweep_sublist
    (fixed : Fixed) (items : List Item) :
    (fixed.sweep items).2.Sublist items := by
  induction items generalizing fixed with
  | nil =>
      exact List.Sublist.refl _
  | cons item items ih =>
      unfold sweep
      split
      · exact (ih _).cons _
      · exact (ih _).cons_cons _

end Fixed

/-- The fixing constraints in force, the changes still to be made, and the last result. -/
structure Necessity where
  /-- The result of the last analysis. -/
  fixed : Fixed
  /-- The axes whose extent has to be measured in any case. -/
  forced : OrderedSet (Entity × Axis)
  /-- The constraints that the last analysis took into account. -/
  active : OrderedMap ConstraintId (List Item)
  /-- Constraints to be taken into account from the next analysis on. -/
  additions : OrderedMap ConstraintId (List Item)
  /-- Constraints to be dropped before the next analysis. -/
  removals : OrderedSet ConstraintId

namespace Necessity

/-- No constraints and nothing fixed. -/
def empty : Necessity :=
  ⟨∅, ∅, ∅, ∅, ∅⟩

instance : EmptyCollection Necessity :=
  ⟨empty⟩

/-- Takes a constraint into account if it is fixing. -/
def add {K : Type} [Scalar K] (n : Necessity) (c : Constraint K) : Necessity :=
  if c.isFixing then
    { n with
      removals := n.removals.erase c.id
      additions :=
        if n.active.contains c.id then n.additions else n.additions.insert c.id c.items }
  else n

/-- Drops a constraint. -/
def remove (n : Necessity) (id : ConstraintId) : Necessity :=
  if n.additions.contains id then { n with additions := n.additions.erase id }
  else if n.active.contains id then { n with removals := n.removals.insert id }
  else n

/-- Sets or clears the mark that an extent has to be measured in any case. -/
def force (n : Necessity) (e : Entity) (axis : Axis) (on : Bool) : Necessity :=
  { n with forced := if on then n.forced.insert (e, axis) else n.forced.erase (e, axis) }

/-- Clears the marks of an entity. -/
def forget (n : Necessity) (e : Entity) : Necessity :=
  (n.force e .horizontal false).force e .vertical false

/-- True if changes are waiting. -/
def isStale (n : Necessity) : Bool :=
  !(n.additions.isEmpty && n.removals.isEmpty)

/-- The constraints once the waiting changes are made. -/
def tracked (n : Necessity) : OrderedMap ConstraintId (List Item) :=
  n.additions.entries.foldl (fun m e => m.insert e.1 e.2)
    (n.removals.toList.foldl OrderedMap.erase n.active)

/-- Makes the waiting changes, if any, and analyses again. -/
def refresh (n : Necessity) : Necessity :=
  if n.isStale then
    { n with
      active := n.tracked
      additions := ∅
      removals := ∅
      fixed := Fixed.settle ∅ n.tracked.values.flatten }
  else n

/-- Whether a variable is fixed. -/
def isFixed (n : Necessity) (v : Variable) : Bool × Necessity :=
  (n.refresh.fixed.contains v, n.refresh)

/-- Whether the extent of an entity along an axis has to be measured. -/
def needsSize (n : Necessity) (e : Entity) (axis : Axis) : Bool × Necessity :=
  (n.refresh.forced.contains (e, axis) || !n.refresh.fixed.contains ⟨e, axis.extent⟩, n.refresh)

end Necessity
end LinearLayout
