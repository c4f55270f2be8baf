import LinearLayout.Layout.Basic

/-!
# Constraints entering and leaving a layout

A constraint is in force as a whole or not at all: when one of its equations is refused, those
that were already added are removed again.
-/

namespace LinearLayout

namespace Solver

variable {K : Type} [Scalar K]

/-- Removes equations in turn. -/
def removeAll (s : Solver K) (keys : List EquationKey) : Solver K :=
  keys.foldl (fun s key => (s.remove key).solver) s

/-- Adds equations in turn after those of the given keys; a refusal removes all of them again. -/
def addAll (s : Solver K) (keys : List EquationKey) :
    List (Equation K) → Except SolverError (List EquationKey) × Solver K
  | [] => (.ok keys, s)
  | e :: es =>
    let o := s.add e
    match o.result with
    | .ok key => addAll o.solver (keys ++ [key]) es
    | .error cause => (.error cause, o.solver.removeAll keys)

end Solver

namespace Layout

variable {K : Type} [Scalar K]

/-- Puts a constraint in force that is not active yet. -/
def install (l : Layout K) (c : Constraint K) : Except (LayoutError K) Unit × Layout K :=
  match l.unmanaged? c with
  | some e => (.error (.notManaged e), l)
  | none =>
    let (result, solver) := l.solver.addAll [] c.equations
    match result with
    | .error cause => (.error (.infeasible c cause), { l with solver := solver })
    | .ok keys =>
      (.ok (),
        { l with
          solver := solver
          necessity := l.necessity.add c
          owned := l.owned.alter c.owner fun ids => some ((ids.getD ∅).insert c.id)
          constraints := l.constraints.insert c.id ⟨c, keys⟩ })

/-- Takes a constraint out of force and leaves its system mark as it is. -/
def uninstall (l : Layout K) (id : ConstraintId) : Option (Constraint K × Layout K) :=
  (l.constraints.get? id).map fun active =>
    (active.constraint,
      { l with
        constraints := l.constraints.erase id
        solver := l.solver.removeAll active.keys
        owned := l.owned.modify active.constraint.owner fun ids => ids.erase id
        necessity := l.necessity.remove id })

/-- Marks a constraint as one that the layout installed by itself. -/
def markSystem (l : Layout K) (id : ConstraintId) : Layout K :=
  { l with system := l.system.insert id }

/-- Clears the system mark of a constraint. -/
def unmarkSystem (l : Layout K) (id : ConstraintId) : Layout K :=
  { l with system := l.system.erase id }

/-- Adds a constraint; one that is active already stays as it is. -/
def add (l : Layout K) (c : Constraint K) : Except (LayoutError K) Unit × Layout K :=
  if l.isActive c.id then (.ok (), l) else l.install c

/-- Removes a constraint and tells which one it was. -/
def remove (l : Layout K) (id : ConstraintId) : Option (Constraint K) × Layout K :=
  match (l.unmarkSystem id).uninstall id with
  | none => (none, l.unmarkSystem id)
  | some (c, l) => (some c, l)

/-- Removes constraints in turn. -/
def removeAll (l : Layout K) (ids : List ConstraintId) : Layout K :=
  ids.foldl (fun l id => (l.remove id).2) l

/--
Edits an active constraint: it is taken out of force, changed and installed again.  If the edited
constraint is refused it stays out of force.  The edit may put any other constraint in its place,
which is then installed under its own name.
-/
def update (l : Layout K) (id : ConstraintId) (edit : Constraint K → Constraint K) :
    Except (LayoutError K) Unit × Layout K :=
  match l.uninstall id with
  | none => (.error (.unknownConstraint id), l)
  | some (c, l) =>
    match l.install (edit c) with
    | (.ok (), l) => (.ok (), l)
    | (.error cause, l) => (.error cause, l.unmarkSystem id)

/-- Removes the constraints of an entity that are not system constraints and lists them. -/
def removeExternal (l : Layout K) (e : Entity) : List (Constraint K) × Layout K :=
  ((l.ownedBy e).filter fun id => !l.system.contains id).foldl
    (fun acc id =>
      let (removed, l) := acc.2.remove id
      (acc.1 ++ removed.toList, l))
    ([], l)

/-- Removes the constraints that speak of entities that are not managed. -/
def dropForeign (l : Layout K) : Layout K :=
  l.removeAll <| (l.constraints.filter fun _ a => (l.unmanaged? a.constraint).isSome).keys

end Layout
end LinearLayout
