import LinearLayout.Layout.Install

/-!
# Pinned values

A pin is a required system constraint that gives one variable a value.
-/

namespace LinearLayout
namespace Layout

variable {K : Type} [Scalar K]

/-- Moves an existing pin; a pin that cannot be moved is lost. -/
def movePin (l : Layout K) (v : Variable) (id : ConstraintId) (x : K) :
    Except (LayoutError K) Unit × Layout K :=
  match l.update id fun c => c.withOffset x with
  | (.ok (), l) => (.ok (), l)
  | (.error cause, l) => (.error cause, { l with pins := l.pins.erase v })

/-- Gives a variable that has no active pin a new one. -/
def newPin (l : Layout K) (v : Variable) (id : ConstraintId) (x : K) :
    Except (LayoutError K) Unit × Layout K :=
  match l.install (.toValue id v .equal x) with
  | (.ok (), l) => (.ok (), { l.markSystem id with pins := l.pins.insert v id })
  | (.error cause, l) => (.error cause, l)

/-- Pins a variable to a value; variables of entities that are not managed are left alone. -/
def pin (l : Layout K) (ids : IdSupply) (v : Variable) (x : K) :
    Except (LayoutError K) Unit × Layout K × IdSupply :=
  if l.isManaged v.entity then
    match l.pin? v with
    | some id =>
      let (result, l) := l.movePin v id x
      (result, l, ids)
    | none =>
      let (id, ids) := ids.take
      let (result, l) := l.newPin v id x
      (result, l, ids)
  else (.ok (), l, ids)

/-- Removes the pin of a variable. -/
def unpin (l : Layout K) (v : Variable) : Layout K :=
  match l.pins.get? v with
  | none => l
  | some id => ({ l with pins := l.pins.erase v }.remove id).2

end Layout
end LinearLayout
