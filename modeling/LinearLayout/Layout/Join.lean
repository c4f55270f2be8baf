import LinearLayout.Layout.Entities

/-!
# Joining layouts

One layout takes over the entities and constraints of another.  Where both manage an entity or pin
a variable, the receiver's intrinsic size or pin is kept and the constraints that stood for the
other's are discarded.
-/

namespace LinearLayout
namespace Layout

variable {K : Type} [Scalar K]

/--
Takes over the entities of another layout.  Lists the constraints made from the intrinsic sizes of
those that are managed here already.
-/
def joinEntities (l other : Layout K) : List ConstraintId × Layout K :=
  other.entities.entries.foldl
    (fun acc entry =>
      let (e, record) := entry
      if acc.2.isManaged e then (acc.1 ++ record.sizeConstraints.toList.flatten, acc.2)
      else (acc.1, acc.2.adopt e record.intrinsic record.sizeConstraints))
    ([], l)

/-- Installs the constraints of another layout in order and lists those that are refused. -/
def joinConstraints (l other : Layout K) (superseded : List ConstraintId) :
    List ConstraintId × Layout K :=
  other.constraints.entries.foldl
    (fun acc entry =>
      let (id, active) := entry
      if superseded.contains id then acc
      else
        match acc.2.install active.constraint with
        | (.ok (), l) => (acc.1, if other.system.contains id then l.markSystem id else l)
        | (.error _, l) => (acc.1 ++ [id], l))
    ([], l)

/-- Takes over pins whose constraints are in force. -/
def joinPins (l : Layout K) (pins : List (Variable × ConstraintId)) : Layout K :=
  pins.foldl
    (fun l pin => if l.isActive pin.2 then { l with pins := l.pins.insert pin.1 pin.2 } else l) l

/-- Takes over another layout and lists the constraints that are refused here. -/
def join (l other : Layout K) : List ConstraintId × Layout K :=
  let (supersededSizes, joined) := l.joinEntities other
  let duplicate (pin : Variable × ConstraintId) : Bool := l.pins.contains pin.1
  let supersededPins := (other.pins.entries.filter duplicate).map Prod.snd
  let (rejected, joined) := joined.joinConstraints other (supersededSizes ++ supersededPins)
  (rejected, joined.joinPins (other.pins.entries.filter fun pin => !duplicate pin))

end Layout
end LinearLayout
