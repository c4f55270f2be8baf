import LinearLayout.Layout.Pins
import LinearLayout.Layout.Pool
import LinearLayout.Layout.Sizes

/-!
# Sessions

A session is what callers work with: the layouts under their handles, the constraints that are
held outside of them, and the supply of names.  Every constraint is made in the session, under a
new name, and all copies of it share its owner and its items.

An active constraint can be edited in two ways.  It gets new values, or it gives way to a constraint
that the caller holds: one that was made before, or a copy of an active one, the edited constraint
itself included.  Nothing else can be put in its place, since constraints are not made otherwise.
-/

namespace LinearLayout

/-- What a layout can be asked to do with the entities and constraints that it has. -/
inductive Request (K : Type) where
  | manage (e : Entity)
  | release (e : Entity)
  | remove (id : ConstraintId)
  /-- An active constraint gets new values. -/
  | update (id : ConstraintId) (edit : Edit K)
  | pin (v : Variable) (x : K)
  | unpin (v : Variable)
  | changeIntrinsic (e : Entity) (axis : Axis) (change : IntrinsicChange K)
  | removeExternal (e : Entity)
  | needsSize (e : Entity) (axis : Axis)

/-- The layout after a request and the supply without the names that the request took. -/
def Layout.serve {K : Type} [Scalar K] (l : Layout K) (ids : IdSupply) :
    Request K → Layout K × IdSupply
  | .manage e => (l.manage e, ids)
  | .release e => (l.release e, ids)
  | .remove id => ((l.remove id).2, ids)
  | .update id edit => ((l.update id edit).2, ids)
  | .pin v x => (l.pin ids v x).2
  | .unpin v => (l.unpin v, ids)
  | .changeIntrinsic e axis change => (l.changeIntrinsic ids e axis change).2
  | .removeExternal e => ((l.removeExternal e).2, ids)
  | .needsSize e axis => ((l.needsSize e axis).2, ids)

/-- What a caller is told. -/
inductive Reply (K : Type) [Scalar K] where
  | done
  | outcome (result : Except (LayoutError K) Unit)
  | constraints (cs : List (Constraint K))
  | names (ids : List ConstraintId)
  | handle (h : Handle)
  | needed (answer : Bool)

/-- What the caller is told about a request. -/
def Layout.reply {K : Type} [Scalar K] (l : Layout K) (ids : IdSupply) : Request K → Reply K
  | .manage _ | .release _ | .unpin _ => .done
  | .remove id => .constraints (l.remove id).1.toList
  | .update id edit => .outcome (l.update id edit).1
  | .pin v x => .outcome (l.pin ids v x).1
  | .changeIntrinsic e axis change => .outcome (l.changeIntrinsic ids e axis change).1
  | .removeExternal e => .constraints (l.removeExternal e).1
  | .needsSize e axis => .needed (l.needsSize e axis).1

/-- What can happen in a session. -/
inductive Event (K : Type) [Scalar K] where
  /-- A constraint is made. -/
  | make (owner : Entity) (items : List Item) (edit : Edit K)
  /-- A copy of an active constraint is taken out. -/
  | copy (h : Handle) (id : ConstraintId)
  /-- A layout without entities is shared. -/
  | start (settings : Settings K)
  /-- A layout is asked for something. -/
  | ask (h : Handle) (request : Request K)
  /-- A held constraint, with new values, is added to a layout. -/
  | add (h : Handle) (index : Nat) (edit : Edit K)
  /-- An active constraint gives way to a held one, with new values. -/
  | replace (h : Handle) (id : ConstraintId) (index : Nat) (edit : Edit K)
  | split (h : Handle) (root : Entity) (tree : ChildRelation)
  | join (target source : Handle)

/-- Layouts, the constraints held outside of them, and the names not given out yet. -/
structure Session (K : Type) [Scalar K] where
  ids : IdSupply
  held : List (Constraint K)
  pool : Pool K

namespace Session

variable {K : Type} [Scalar K]

/-- The session in which nothing has happened. -/
def empty : Session K :=
  ⟨{}, [], ∅⟩

/-- The layout of a handle. -/
def layout? (s : Session K) (h : Handle) : Option (Layout K) :=
  s.pool.get? h

/-- Replaces the layout of a handle. -/
def setLayout (s : Session K) (h : Handle) (l : Layout K) : Session K :=
  { s with pool := s.pool.set h l }

/-- Makes a constraint under a new name. -/
def make (s : Session K) (owner : Entity) (items : List Item) (edit : Edit K) : Session K :=
  let (id, ids) := s.ids.take
  { s with ids := ids, held := s.held ++ [(Constraint.new id owner items).edit edit] }

/-- Takes out a copy of an active constraint. -/
def copy (s : Session K) (h : Handle) (id : ConstraintId) : Session K :=
  { s with held := s.held ++ ((s.layout? h).bind fun l => l.constraint? id).toList }

/-- Asks a layout for something. -/
def ask (s : Session K) (h : Handle) (request : Request K) : Session K :=
  match s.layout? h with
  | none => s
  | some l =>
    let (l, ids) := l.serve s.ids request
    { s.setLayout h l with ids := ids }

/-- Adds a held constraint to a layout. -/
def add (s : Session K) (h : Handle) (index : Nat) (edit : Edit K) : Session K :=
  match s.layout? h, s.held[index]? with
  | some l, some c => s.setLayout h (l.add (c.edit edit)).2
  | _, _ => s

/-- Puts a held constraint in the place of an active one. -/
def replace (s : Session K) (h : Handle) (id : ConstraintId) (index : Nat) (edit : Edit K) :
    Session K :=
  match s.layout? h, s.held[index]? with
  | some l, some c => s.setLayout h (l.update id fun _ => c.edit edit).2
  | _, _ => s

/-- Splits a layout. -/
def split (s : Session K) (h : Handle) (root : Entity) (tree : ChildRelation) : Session K :=
  match s.pool.split h root tree with
  | none => s
  | some (_, pool) => { s with pool := pool }

/-- Joins a layout into another. -/
def join (s : Session K) (target source : Handle) : Session K :=
  match s.pool.join target source with
  | none => s
  | some (_, pool) => { s with pool := pool }

/-- The session after an event. -/
def step (s : Session K) : Event K → Session K
  | .make owner items edit => s.make owner items edit
  | .copy h id => s.copy h id
  | .start settings => { s with pool := (s.pool.share (.new settings)).2 }
  | .ask h request => s.ask h request
  | .add h index edit => s.add h index edit
  | .replace h id index edit => s.replace h id index edit
  | .split h root tree => s.split h root tree
  | .join target source => s.join target source

/-- What the caller is told about an event; nothing if a layout or a held constraint is missing. -/
def reply (s : Session K) : Event K → Option (Reply K)
  | .make .. => some .done
  | .copy h id => (s.layout? h).map fun l => .constraints (l.constraint? id).toList
  | .start settings => some (.handle (s.pool.share (.new settings)).1)
  | .ask h request => (s.layout? h).map fun l => l.reply s.ids request
  | .add h index edit =>
    match s.layout? h, s.held[index]? with
    | some l, some c => some (.outcome (l.add (c.edit edit)).1)
    | _, _ => none
  | .replace h id index edit =>
    match s.layout? h, s.held[index]? with
    | some l, some c => some (.outcome (l.update id fun _ => c.edit edit).1)
    | _, _ => none
  | .split h root tree => (s.pool.split h root tree).map fun result => .handle result.1
  | .join target source => (s.pool.join target source).map fun result => .names result.1

/-- The session after a list of events. -/
def run (s : Session K) (events : List (Event K)) : Session K :=
  events.foldl step s

/-- Two layouts have no active constraint in common. -/
def apart (l other : Layout K) : Bool :=
  l.constraints.keys.all fun id => !other.isActive id

/--
An event neither joins two layouts that have an active constraint in common, nor puts a constraint
in the place of another while it is active itself.
-/
def keepsApart (s : Session K) : Event K → Bool
  | .join target source =>
    match s.layout? target, s.layout? source with
    | some l, some other => target = source || apart l other
    | _, _ => true
  | .replace h id index _ =>
    match s.layout? h, s.held[index]? with
    | some l, some c => c.id = id || !l.isActive c.id
    | _, _ => true
  | _ => true

/-- Every event of a list keeps apart what is active when it happens. -/
def staysApart (s : Session K) : List (Event K) → Bool
  | [] => true
  | event :: events => s.keepsApart event && (s.step event).staysApart events

theorem isActive_eq_false_of_apart
    {l other : Layout K} {id : ConstraintId}
    (h : apart l other = true)
    (hactive : l.isActive id = true) :
    other.isActive id = false := by
  have hforeign := List.all_eq_true.1 h id (OrderedMap.contains_eq_true.1 hactive)
  simpa using hforeign

/-- Every event of a list obeys a rule in the session in which it happens. -/
def heeds (rule : Session K → Event K → Bool) (s : Session K) : List (Event K) → Bool
  | [] => true
  | event :: events => rule s event && (s.step event).heeds rule events

theorem staysApart_eq_heeds
    (s : Session K) (events : List (Event K)) :
    s.staysApart events = s.heeds keepsApart events := by
  induction events generalizing s with
  | nil =>
      rfl
  | cons event events ih =>
      exact congrArg (s.keepsApart event && ·) (ih (s.step event))

theorem run_append
    (s : Session K) (events more : List (Event K)) :
    s.run (events ++ more) = (s.run events).run more :=
  List.foldl_append

end Session
end LinearLayout
