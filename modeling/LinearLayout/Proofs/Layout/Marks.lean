import LinearLayout.Proofs.Layout.Union
import LinearLayout.Proofs.Necessity.Calls

/-!
# The marks of binding sizes

The analysis carries a mark for every axis along which the measured extent of an entity is binding.
The marks go with the entities: they are set when an entity enters, change with its intrinsic size
and are cleared when it leaves, and no constraint touches them.
-/

namespace LinearLayout

namespace AxisIntrinsic

variable {K : Type} [Scalar K] {a b : AxisIntrinsic K}

theorem isRequired_of_sameAs
    {p q : Priority K}
    (h : p.sameAs q = true) :
    p.isRequired = q.isRequired := by
  cases p <;> cases q <;> first | rfl | cases h

/-- A change that changes nothing leaves the measured extent as binding as it was. -/
theorem requiresMeasurement_of_sameAs
    (h : a.sameAs b = true) :
    a.requiresMeasurement = b.requiresMeasurement := by
  simp only [sameAs, Bool.and_eq_true] at h
  rw [requiresMeasurement, requiresMeasurement, isRequired_of_sameAs h.1.2,
    isRequired_of_sameAs h.2]

end AxisIntrinsic

namespace Layout

variable {K : Type} [Scalar K] {l other m : Layout K} {names : Names} {id : ConstraintId}
  {c : Constraint K} {e f : Entity} {axis : Axis}

/-- The measured extent of a managed entity is binding. -/
def requiresMeasurement (l : Layout K) (e : Entity) (axis : Axis) : Bool :=
  (l.intrinsic? e).any fun size => (size.get axis).requiresMeasurement

/-- The marks are those of the managed entities. -/
def Marked (l : Layout K) : Prop :=
  ∀ e axis, (e, axis) ∈ l.necessity.forced.toList ↔ l.requiresMeasurement e axis = true

theorem marked_new
    (settings : Settings K) :
    Marked (new settings) :=
  fun _ _ => ⟨nofun, fun h => nomatch h⟩

section Constraints

/-- Only the marks and the intrinsic sizes matter. -/
theorem Marked.congr
    (h : Marked l)
    (hforced : m.necessity.forced = l.necessity.forced)
    (hsizes : ∀ e, m.intrinsic? e = l.intrinsic? e) :
    Marked m := by
  intro e axis
  rw [hforced, requiresMeasurement, hsizes]
  exact h e axis

theorem Marked.install
    (h : Marked l)
    (c : Constraint K) :
    Marked (l.install c).2 := by
  rcases install_cases l c with ⟨_, s, heq, _⟩ | ⟨keys, s, heq, _⟩
  · rw [heq]
    exact h.congr rfl fun _ => rfl
  · rw [heq]
    exact h.congr Necessity.forced_add fun _ => rfl

theorem Marked.add
    (h : Marked l)
    (c : Constraint K) :
    Marked (l.add c).2 := by
  unfold Layout.add
  split
  · exact h
  · exact h.install c

@[simp] theorem forced_without :
    (l.without id).necessity.forced = l.necessity.forced := by
  cases h : l.constraints.get? id <;> simp [without, uninstall, h]

theorem forced_removeAll
    (ids : List ConstraintId) :
    (l.removeAll ids).necessity.forced = l.necessity.forced :=
  removeAll_induction (P := fun u => u.necessity.forced = l.necessity.forced)
    (fun u id hu => by rw [remove_snd, forced_without]; exact hu) rfl ids

theorem Marked.without
    (h : Marked l)
    (id : ConstraintId) :
    Marked (l.without id) :=
  h.congr forced_without fun e => by rw [intrinsic?, entities_without]; rfl

theorem Marked.removeAll
    (h : Marked l)
    (ids : List ConstraintId) :
    Marked (l.removeAll ids) :=
  h.congr (forced_removeAll ids) fun e => by rw [intrinsic?, entities_removeAll]; rfl

theorem Marked.remove
    (h : Marked l)
    (id : ConstraintId) :
    Marked (l.remove id).2 :=
  h.removeAll [id]

theorem Marked.update
    (h : Marked l)
    (id : ConstraintId) (edit : Constraint K → Constraint K) :
    Marked (l.update id edit).2 := by
  rcases update_cases l id edit with ⟨_, heq⟩ | ⟨c, _, ⟨keys, s, heq, _⟩ | ⟨cause, s, heq⟩⟩
  · rw [heq]
    exact h
  · rw [heq]
    exact (h.without id).congr Necessity.forced_add fun _ => rfl
  · rw [heq]
    exact (h.without id).congr rfl fun _ => rfl

theorem Marked.pin
    (h : Marked l)
    (supply : IdSupply) (v : Variable) (x : K) :
    Marked (l.pin supply v x).2.1 := by
  rcases pin_steps l supply v x with heq | ⟨id, pins, _, heq⟩ | ⟨_, heq | ⟨pins, heq⟩⟩
  · rwa [heq]
  · rw [heq]
    exact (h.update id _).congr rfl fun _ => rfl
  · rw [heq]
    exact h.install _
  · rw [heq]
    exact (h.install _).congr rfl fun _ => rfl

theorem Marked.unpin
    (h : Marked l)
    (v : Variable) :
    Marked (l.unpin v) := by
  unfold Layout.unpin
  cases hv : l.pins.get? v with
  | none => exact h
  | some id =>
      have herased : Marked { l with pins := l.pins.erase v } := h.congr rfl fun _ => rfl
      exact herased.remove id

end Constraints

section Entities

variable {r : ManagedEntity K} {pair : Layout K × Layout K}

theorem intrinsic?_of_get?
    (hr : l.entities.get? e = some r) :
    l.intrinsic? e = some r.intrinsic := by
  rw [intrinsic?, hr]
  rfl

/-- An entity enters with the marks of its size, whatever marks were left of it. -/
theorem Marked.adopt
    (h : Marked l)
    (e : Entity) (size : IntrinsicSize K) (sizes : PerAxis (List ConstraintId)) :
    Marked (l.adopt e size sizes) := by
  intro f axis
  have hforced : (f, axis) ∈ (l.adopt e size sizes).necessity.forced.toList ↔
      if f = e then (size.get axis).requiresMeasurement = true
      else (f, axis) ∈ l.necessity.forced.toList := by
    refine (Necessity.mem_forced_force _ _ _ _ _ _).trans ?_
    rw [Necessity.mem_forced_force]
    by_cases hf : f = e <;> cases axis <;> simp [hf]
  rw [hforced, requiresMeasurement, intrinsic?, entities_adopt, OrderedMap.get?_insert]
  by_cases hf : f = e
  · simp [hf]
  · rw [if_neg hf, if_neg hf]
    exact h f axis

theorem Marked.manage
    (h : Marked l)
    (e : Entity) :
    Marked (l.manage e) := by
  unfold Layout.manage
  split
  · exact h
  · exact h.adopt e _ _

/-- An entity leaves with its marks. -/
theorem Marked.forget
    (h : Marked l)
    (hforced : m.necessity.forced = (l.necessity.forget e).forced)
    (hentities : m.entities = l.entities.erase e) :
    Marked m := by
  intro f axis
  rw [hforced, Necessity.mem_forced_forget, requiresMeasurement, intrinsic?, hentities,
    OrderedMap.get?_erase]
  by_cases hf : f = e
  · simp [hf]
  · rw [if_neg hf, and_iff_right hf]
    exact h f axis

theorem Marked.release
    (h : Marked l)
    (e : Entity) :
    Marked (l.release e) := by
  cases hr : l.entities.get? e with
  | none =>
      rw [release_of_get?_eq_none hr]
      exact h
  | some r =>
      rw [release_of_get? hr]
      have hforced : (l.stripped e r).necessity.forced = (l.necessity.forget e).forced := by
        have hbefore : ((l.struck e r).removeAll (l.ownedBy e)).necessity.forced =
            l.necessity.forced := forced_removeAll (l.ownedBy e)
        simp only [stripped, Necessity.forget, Necessity.force, hbefore, Bool.false_eq_true,
          if_false]
      exact (h.forget hforced (entities_stripped r)).removeAll _

theorem intrinsic?_modify
    {g : ManagedEntity K → ManagedEntity K}
    (hg : ∀ r, (g r).intrinsic = r.intrinsic)
    (f : Entity) :
    intrinsic? { l with entities := l.entities.modify e g } f = l.intrinsic? f := by
  rw [intrinsic?, OrderedMap.get?_modify]
  split
  · next hf =>
    rw [hf, Option.map_map, intrinsic?]
    exact congrArg (Option.map · (l.entities.get? e)) (funext hg)
  · rfl

theorem intrinsic?_storeIntrinsic
    (hr : l.entities.get? e = some r)
    (axis : Axis) (a : AxisIntrinsic K) (f : Entity) :
    (l.storeIntrinsic e axis a).intrinsic? f =
      if f = e then some (r.intrinsic.set axis a) else l.intrinsic? f := by
  by_cases hf : f = e
  · rw [hf, if_pos rfl, intrinsic?_of_get? (get?_entities_storeIntrinsic hr axis a)]
  · rw [if_neg hf, intrinsic?, storeIntrinsic, OrderedMap.get?_modify, if_neg hf]
    rfl

theorem Marked.storeIntrinsic
    (h : Marked l)
    (hr : l.entities.get? e = some r)
    {a : AxisIntrinsic K}
    (hsame : a.sameAs (r.intrinsic.get axis) = true) :
    Marked (l.storeIntrinsic e axis a) := by
  intro f x
  rw [requiresMeasurement, intrinsic?_storeIntrinsic hr]
  refine (h f x).trans ?_
  by_cases hf : f = e
  · rw [hf, if_pos rfl, requiresMeasurement, intrinsic?_of_get? hr]
    by_cases hx : x = axis
    · rw [hx, Option.any_some, Option.any_some, PerAxis.get_set_self,
        AxisIntrinsic.requiresMeasurement_of_sameAs hsame]
    · rw [Option.any_some, Option.any_some, PerAxis.get_set_of_ne _ _ hx]
  · rw [if_neg hf]
    rfl

theorem Marked.cleared
    (h : Marked l)
    (hr : l.entities.get? e = some r)
    (a : AxisIntrinsic K) :
    Marked (l.cleared e axis r a) := by
  intro f x
  have hforced : (f, x) ∈ (l.cleared e axis r a).necessity.forced.toList ↔
      if f = e ∧ x = axis then a.requiresMeasurement = true
      else (f, x) ∈ l.necessity.forced.toList := by
    refine (Necessity.mem_forced_force _ _ _ _ _ _).trans ?_
    rw [forced_removeAll]
    rfl
  have hsizes : (l.cleared e axis r a).intrinsic? f =
      if f = e then some (r.intrinsic.set axis a) else l.intrinsic? f := by
    rw [← intrinsic?_storeIntrinsic hr]
    refine Eq.trans ?_ (intrinsic?_modify (l := l.storeIntrinsic e axis a) (e := e)
      (g := fun m => { m with sizeConstraints := m.sizeConstraints.set axis [] }) (fun _ => rfl) f)
    exact congrArg (fun m : OrderedMap Entity (ManagedEntity K) =>
      (m.get? f).map ManagedEntity.intrinsic) entities_removeAll
  rw [hforced, requiresMeasurement, hsizes]
  by_cases hf : f = e
  · by_cases hx : x = axis
    · simp [hf, hx]
    · rw [if_neg fun hboth => hx hboth.2, if_pos hf, Option.any_some, PerAxis.get_set_of_ne _ _ hx,
        h f x, requiresMeasurement, hf, intrinsic?_of_get? hr, Option.any_some]
  · rw [if_neg fun hboth => hf hboth.1, if_neg hf]
    exact h f x

theorem Marked.installSystem
    (h : Marked l)
    (cs : List (Constraint K)) :
    Marked (l.installSystem cs).2.2 := by
  induction cs generalizing l with
  | nil =>
      exact h
  | cons c cs ih =>
      have hinstalled := h.install c
      rcases hfirst : l.install c with ⟨cause | _, m⟩
      · rw [hfirst] at hinstalled
        rw [installSystem_of_error hfirst]
        exact ih hinstalled
      · rw [hfirst] at hinstalled
        rw [installSystem_of_ok hfirst]
        exact ih (l := m.markSystem c.id) (hinstalled.congr rfl fun _ => rfl)

theorem Marked.changeIntrinsic
    (h : Marked l)
    (supply : IdSupply) (e : Entity) (axis : Axis) (change : IntrinsicChange K) :
    Marked (l.changeIntrinsic supply e axis change).2.1 := by
  cases hr : l.entities.get? e with
  | none =>
      rw [changeIntrinsic_of_get?_eq_none hr]
      exact h
  | some r =>
      rw [changeIntrinsic_of_get? hr]
      split
      · next hsame => exact h.storeIntrinsic hr hsame
      · exact ((h.cleared hr _).installSystem _).congr rfl (intrinsic?_modify fun _ => rfl)

theorem Marked.serve
    (h : Marked l)
    (supply : IdSupply) (request : Request K) :
    Marked (l.serve supply request).1 := by
  cases request with
  | manage e => exact h.manage e
  | release e => exact h.release e
  | remove id => exact h.remove id
  | update id edit => exact h.update id edit
  | pin v x => exact h.pin supply v x
  | unpin v => exact h.unpin v
  | changeIntrinsic e axis change => exact h.changeIntrinsic supply e axis change
  | removeExternal e =>
      show Marked (l.removeExternal e).2
      rw [removeExternal_snd]
      exact h.removeAll _
  | needsSize e axis =>
      show Marked (l.needsSize e axis).2
      unfold needsSize
      split
      · exact h.congr Necessity.forced_refresh fun _ => rfl
      · exact h

theorem Marked.transfer
    (h : Marked pair.1)
    (hpart : Marked pair.2)
    (e : Entity) :
    Marked (transfer pair e).1 ∧ Marked (transfer pair e).2 := by
  cases hr : pair.1.entities.get? e with
  | none =>
      rw [transfer_of_get?_eq_none hr]
      exact ⟨h, hpart⟩
  | some r =>
      rw [transfer_of_get? hr]
      exact ⟨h.forget rfl rfl, hpart.adopt e _ _⟩

theorem Marked.receive
    (h : Marked l)
    (m : Moving K) :
    Marked (l.receive m) := by
  rcases receive_cases l m with ⟨s, heq, _⟩ | ⟨keys, s, _, _, heq⟩
  · rw [heq]
    exact h.congr rfl fun _ => rfl
  · rw [heq]
    split
    · exact h.congr Necessity.forced_add fun _ => rfl
    · exact h.congr Necessity.forced_add fun _ => rfl

/-- The marks go to the side of a split to which their entities go. -/
theorem Marked.split
    (h : Marked l)
    (root : Entity) (tree : ChildRelation) :
    Marked (l.split root tree).1 ∧ Marked (l.split root tree).2 := by
  have htaken : Marked (l.takeAllOwned (tree.subtree root)).2 := by
    refine List.foldlRecOn (tree.subtree root) _ (b := ([], l))
      (motive := fun acc : List (Moving K) × Layout K => Marked acc.2) h fun acc hacc e _ => ?_
    dsimp only
    rw [takeOwned_eq]
    exact hacc.removeAll _
  have hpair := List.foldlRecOn (tree.subtree root) Layout.transfer
    (b := ((l.takeAllOwned (tree.subtree root)).2, new l.settings))
    (motive := fun pair => Marked pair.1 ∧ Marked pair.2)
    ⟨htaken, marked_new l.settings⟩ fun _ hboth e _ => hboth.1.transfer hboth.2 e
  have hreceived := List.foldlRecOn (l.takeAllOwned (tree.subtree root)).1 Layout.receive
    (motive := Marked) hpair.2 fun _ hm moving _ => hm.receive moving
  refine ⟨Marked.removeAll ?_ _, hreceived.congr rfl fun _ => rfl⟩
  exact hpair.1.congr rfl fun _ => rfl

theorem Marked.joinConstraint
    {superseded : List ConstraintId} {acc : List ConstraintId × Layout K}
    {entry : ConstraintId × ActiveConstraint K}
    (h : Marked acc.2) :
    Marked (joinConstraint other superseded acc entry).2 := by
  rcases joinConstraint_cases other superseded acc entry with
    ⟨_, heq⟩ | ⟨_, s, heq, _⟩ | ⟨_, keys, s, _, _, heq⟩
  · rw [heq]
    exact h
  · rw [heq]
    exact h.congr rfl fun _ => rfl
  · rw [heq]
    dsimp only
    split
    · exact h.congr Necessity.forced_add fun _ => rfl
    · exact h.congr Necessity.forced_add fun _ => rfl

/-- A join takes over the marks with the entities that are new to the receiver. -/
theorem Marked.join
    (h : Marked l)
    (other : Layout K) :
    Marked (l.join other).2 := by
  have hentities : Marked (l.joinEntities other).2 :=
    joinEntities_induction (P := Marked) (fun _ e _ _ _ hm => hm.adopt e _ _) h other
  have hconstraints : Marked
      ((l.joinEntities other).2.joinConstraints other (l.superseded other)).2 :=
    List.foldlRecOn other.constraints.entries (Layout.joinConstraint other (l.superseded other))
      (b := ([], (l.joinEntities other).2)) (motive := fun acc => Marked acc.2) hentities
      fun _ hacc _ _ => hacc.joinConstraint
  obtain ⟨pins, heq, _⟩ := joinPins_eq (l.newPins other).nodup_keys
    ((l.joinEntities other).2.joinConstraints other (l.superseded other)).2
  rw [join_eq, heq]
  exact hconstraints.congr rfl fun _ => rfl

end Entities

end Layout
end LinearLayout
