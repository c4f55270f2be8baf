import LinearLayout.Hierarchy.Subtree
import LinearLayout.Layout.Entities

/-!
# Splitting a layout

The managed entities of a subtree move to a layout of their own.  Constraints go with them if all
their entities do; constraints that reach across the cut are dropped on both sides.
-/

namespace LinearLayout
namespace Layout

variable {K : Type} [Scalar K]

/-- A constraint on its way to another layout, with its system mark. -/
structure Moving (K : Type) [Scalar K] where
  constraint : Constraint K
  isSystem : Bool

/-- Takes out all constraints that an entity owns. -/
def takeOwned (l : Layout K) (e : Entity) : List (Moving K) × Layout K :=
  (l.ownedBy e).foldl
    (fun acc id =>
      let isSystem := acc.2.system.contains id
      let (removed, l) := acc.2.remove id
      (acc.1 ++ (removed.map fun c => ⟨c, isSystem⟩).toList, l))
    ([], l)

/-- Takes out all constraints that any of the listed entities owns. -/
def takeAllOwned (l : Layout K) (es : List Entity) : List (Moving K) × Layout K :=
  es.foldl
    (fun acc e =>
      let (moving, l) := acc.2.takeOwned e
      (acc.1 ++ moving, l))
    ([], l)

/-- Moves an entity, if it is managed, from the first layout to the second. -/
def transfer (pair : Layout K × Layout K) (e : Entity) : Layout K × Layout K :=
  let (source, target) := pair
  match source.entities.get? e with
  | none => (source, target)
  | some record =>
    ({ source with
        entities := source.entities.erase e
        solver := source.solver.removeAll record.boxKeys
        owned := source.owned.erase e
        necessity := source.necessity.forget e },
      target.adopt e record.intrinsic record.sizeConstraints)

/-- Installs a constraint that arrives; one that is refused is dropped. -/
def receive (l : Layout K) (m : Moving K) : Layout K :=
  match l.install m.constraint with
  | (.ok (), l) => if m.isSystem then l.markSystem m.constraint.id else l
  | (.error _, l) => l

/-- The layout that stays and the new layout of the subtree of `root`. -/
def split (l : Layout K) (root : Entity) (tree : ChildRelation) : Layout K × Layout K :=
  let leaving := tree.subtree root
  let (moving, rest) := l.takeAllOwned leaving
  let (rest, part) := leaving.foldl transfer (rest, new l.settings)
  let part := moving.foldl receive part
  let leaves (v : Variable) : Bool := leaving.contains v.entity
  let part : Layout K := { part with pins := rest.pins.filter fun v _ => leaves v }
  let rest : Layout K := { rest with pins := rest.pins.filter fun v _ => !leaves v }
  (rest.dropForeign, part)

end Layout
end LinearLayout
