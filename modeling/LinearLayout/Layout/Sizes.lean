import LinearLayout.Layout.Install

/-!
# Changes of intrinsic sizes

When the intrinsic size of an entity changes along an axis, the constraints made from it are
replaced.  The new size is kept even where its constraints are refused.
-/

namespace LinearLayout

/-- One change of an intrinsic size along an axis. -/
inductive IntrinsicChange (K : Type) where
  /-- A new measured extent, or none. -/
  | size (x : Option K)
  /-- A new resistance against growing. -/
  | hugging (p : Priority K)
  /-- A new resistance against shrinking. -/
  | resistance (p : Priority K)

/-- Applies a change. -/
def AxisIntrinsic.change {K : Type} (a : AxisIntrinsic K) : IntrinsicChange K → AxisIntrinsic K
  | .size x => { a with size := x }
  | .hugging p => { a with hugging := p }
  | .resistance p => { a with resistance := p }

namespace Layout

variable {K : Type} [Scalar K]

/--
Installs system constraints in turn.  Tells which of them are in force and keeps the first
refusal.
-/
def installSystem (l : Layout K) :
    List (Constraint K) → Except (LayoutError K) Unit × List ConstraintId × Layout K
  | [] => (.ok (), [], l)
  | c :: cs =>
    match l.install c with
    | (.ok (), l) =>
      let (result, ids, l) := installSystem (l.markSystem c.id) cs
      (result, c.id :: ids, l)
    | (.error cause, l) =>
      let (_, ids, l) := installSystem l cs
      (.error cause, ids, l)

/-- Stores the intrinsic size of an entity along an axis. -/
def storeIntrinsic (l : Layout K) (e : Entity) (axis : Axis) (a : AxisIntrinsic K) : Layout K :=
  { l with
    entities := l.entities.modify e fun m => { m with intrinsic := m.intrinsic.set axis a } }

/-- Stores the names of the constraints made from an intrinsic size. -/
def storeSizeConstraints (l : Layout K) (e : Entity) (axis : Axis) (ids : List ConstraintId) :
    Layout K :=
  { l with
    entities := l.entities.modify e fun m =>
      { m with sizeConstraints := m.sizeConstraints.set axis ids } }

/-- Changes the intrinsic size of a managed entity along an axis. -/
def changeIntrinsic (l : Layout K) (ids : IdSupply) (e : Entity) (axis : Axis)
    (change : IntrinsicChange K) : Except (LayoutError K) Unit × Layout K × IdSupply :=
  match l.entities.get? e with
  | none => (.ok (), l, ids)
  | some record =>
    let before := record.intrinsic.get axis
    let after := before.change change
    let l := l.storeIntrinsic e axis after
    if after.sameAs before then (.ok (), l, ids)
    else
      let l := (l.storeSizeConstraints e axis []).removeAll (record.sizeConstraints.get axis)
      let l := { l with necessity := l.necessity.force e axis after.requiresMeasurement }
      let (constraints, ids) := after.constraints ids e axis
      let (result, installed, l) := l.installSystem constraints
      (result, l.storeSizeConstraints e axis installed, ids)

end Layout
end LinearLayout
