import LinearLayout.Layout.Install

/-!
# Entities entering and leaving a layout

Along each axis the attributes of a box obey two required equations: the extent is the distance
between the edges, and twice the center is their sum.
-/

namespace LinearLayout

/-- The equations of a box along one axis. -/
def boxEquations {K : Type} [Scalar K] (e : Entity) (axis : Axis) : List (Equation K) :=
  let leading : Variable := ⟨e, axis.leading⟩
  let trailing : Variable := ⟨e, axis.trailing⟩
  let extent : Variable := ⟨e, axis.extent⟩
  let center : Variable := ⟨e, axis.center⟩
  [⟨[⟨1, extent⟩, ⟨-1, trailing⟩, ⟨1, leading⟩], .equal, 0, .required⟩,
    ⟨[⟨((2 : Nat) : K), center⟩, ⟨-1, leading⟩, ⟨-1, trailing⟩], .equal, 0, .required⟩]

/-- Adds equations in turn, passing over those that are refused. -/
def Solver.addAccepted {K : Type} [Scalar K] (s : Solver K) (es : List (Equation K)) :
    List EquationKey × Solver K :=
  es.foldl
    (fun acc e =>
      let o := acc.2.add e
      match o.result with
      | .ok key => (acc.1 ++ [key], o.solver)
      | .error _ => (acc.1, o.solver))
    ([], s)

namespace Layout

variable {K : Type} [Scalar K]

/-- Registers an entity that is not managed yet. -/
def adopt (l : Layout K) (e : Entity) (intrinsic : IntrinsicSize K)
    (sizeConstraints : PerAxis (List ConstraintId)) : Layout K :=
  let (keys, solver) := l.solver.addAccepted (Axis.all.flatMap (boxEquations e))
  { l with
    solver := solver
    necessity := Axis.all.foldl
      (fun n axis => n.force e axis (intrinsic.get axis).requiresMeasurement) l.necessity
    entities := l.entities.insert e ⟨keys, intrinsic, sizeConstraints⟩
    owned := l.owned.alter e fun ids => some (ids.getD ∅) }

/-- Starts to manage an entity; one that is managed already stays as it is. -/
def manage (l : Layout K) (e : Entity) : Layout K :=
  if l.isManaged e then l
  else l.adopt e (.ofSettings l.settings.intrinsic) (.both [])

/-- Stops managing an entity; every constraint that speaks of it goes too. -/
def release (l : Layout K) (e : Entity) : Layout K :=
  match l.entities.get? e with
  | none => l
  | some record =>
    let ids := l.ownedBy e
    let l : Layout K :=
      { l with
        entities := l.entities.erase e
        solver := l.solver.removeAll record.boxKeys
        owned := l.owned.erase e }
    let l := l.removeAll ids
    let l : Layout K :=
      { l with
        pins := l.pins.filter fun v _ => v.entity ≠ e
        necessity := l.necessity.forget e }
    l.dropForeign

end Layout
end LinearLayout
