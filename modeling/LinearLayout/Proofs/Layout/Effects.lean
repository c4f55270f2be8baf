import LinearLayout.Layout.Session
import LinearLayout.Proofs.OrderedMap.Selections

/-!
# What the operations of a layout change

All operations are made of a few writers: one puts a constraint in force, one takes a constraint
out of force, and one registers an entity.  Each of them is described here by what it does to the
tables of the layout, so that no later proof has to open it again.
-/

namespace LinearLayout

namespace PerAxis

variable {α : Type}

theorem mem_flatten_toList
    {p : PerAxis (List α)} {x : α} :
    x ∈ p.toList.flatten ↔ ∃ axis, x ∈ p.get axis := by
  constructor
  · intro hx
    rw [toList, List.flatten_cons, List.flatten_cons, List.flatten_nil, List.append_nil,
      List.mem_append] at hx
    rcases hx with hx | hx
    · exact ⟨.horizontal, hx⟩
    · exact ⟨.vertical, hx⟩
  · rintro ⟨axis, hx⟩
    cases axis with
    | horizontal => exact List.mem_flatten.2 ⟨_, List.mem_cons_self, hx⟩
    | vertical => exact List.mem_flatten.2 ⟨_, List.mem_cons_of_mem _ List.mem_cons_self, hx⟩

end PerAxis

namespace Layout

variable {K : Type} [Scalar K] {l : Layout K} {id : ConstraintId} {c : Constraint K} {e : Entity}

/-- The active constraints of an owner, in the order of the table of constraints. -/
def activeOf (l : Layout K) (e : Entity) : List ConstraintId :=
  (l.constraints.filter fun _ a => decide (a.constraint.owner = e)).keys

/-- The active constraints, in the order of their table. -/
def active (l : Layout K) : List (Constraint K) :=
  l.constraints.values.map ActiveConstraint.constraint

theorem isActive_iff :
    l.isActive id = true ↔ ∃ a, l.constraints.get? id = some a := by
  rw [isActive, OrderedMap.contains, Option.isSome_iff_exists]

theorem mem_activeOf_iff :
    id ∈ l.activeOf e ↔ ∃ a, l.constraints.get? id = some a ∧ a.constraint.owner = e := by
  rw [activeOf, OrderedMap.mem_keys_iff]
  simp [OrderedMap.get?_filter, Option.filter_eq_some_iff]

section Install

/-- The layout with a constraint in force, its equations installed under the given keys. -/
def enforced (l : Layout K) (c : Constraint K) (keys : List EquationKey) (s : Solver K) :
    Layout K :=
  { l with
    solver := s
    necessity := l.necessity.add c
    owned := l.owned.alter c.owner fun ids => some ((ids.getD ∅).insert c.id)
    constraints := l.constraints.insert c.id ⟨c, keys⟩ }

/-- A constraint is refused and only the solver has changed, or all of it is in force. -/
theorem install_cases
    (l : Layout K) (c : Constraint K) :
    (∃ cause s, l.install c = (.error cause, { l with solver := s }) ∧
      (s = l.solver ∨ ∃ reason, l.solver.addAll [] c.equations = (.error reason, s))) ∨
      (∃ keys s, l.install c = (.ok (), l.enforced c keys s) ∧ l.unmanaged? c = none ∧
        l.solver.addAll [] c.equations = (.ok keys, s)) := by
  unfold install
  cases hforeign : l.unmanaged? c with
  | some e => exact Or.inl ⟨_, _, rfl, Or.inl rfl⟩
  | none =>
      rcases hadd : l.solver.addAll [] c.equations with ⟨reason | keys, s⟩
      · exact Or.inl ⟨_, _, rfl, Or.inr ⟨reason, rfl⟩⟩
      · exact Or.inr ⟨keys, s, rfl, rfl, rfl⟩

theorem entities_install
    (l : Layout K) (c : Constraint K) :
    (l.install c).2.entities = l.entities := by
  rcases install_cases l c with ⟨_, s, heq, _⟩ | ⟨keys, s, heq, _⟩
  · rw [heq]
  · rw [heq]
    rfl

theorem isManaged_of_unmanaged?_eq_none
    (h : l.unmanaged? c = none)
    (he : e ∈ c.entities) :
    l.isManaged e = true := by
  simpa using List.find?_eq_none.1 h e he

theorem ownedBy_enforced
    (keys : List EquationKey) (s : Solver K) (e : Entity) :
    (l.enforced c keys s).ownedBy e =
      if e = c.owner ∧ c.id ∉ l.ownedBy e then l.ownedBy e ++ [c.id] else l.ownedBy e := by
  simp only [ownedBy, enforced, OrderedMap.get?_alter]
  by_cases he : e = c.owner
  · subst he
    simp only [if_true, Option.getD_some, OrderedSet.toList_insert, true_and]
    split <;> simp_all
  · simp [he]

end Install

section Uninstall

/-- The layout without a constraint, its system mark left as it is. -/
def without (l : Layout K) (id : ConstraintId) : Layout K :=
  ((l.uninstall id).map Prod.snd).getD l

theorem uninstall_eq
    (l : Layout K) (id : ConstraintId) :
    l.uninstall id = (l.constraint? id).map fun c => (c, l.without id) := by
  cases h : l.constraints.get? id <;> simp [without, uninstall, constraint?, h]

theorem without_of_get?_eq_none
    (h : l.constraints.get? id = none) :
    l.without id = l := by
  simp [without, uninstall, h]

@[simp] theorem settings_without :
    (l.without id).settings = l.settings := by
  cases h : l.constraints.get? id <;> simp [without, uninstall, h]

@[simp] theorem entities_without :
    (l.without id).entities = l.entities := by
  cases h : l.constraints.get? id <;> simp [without, uninstall, h]

@[simp] theorem system_without :
    (l.without id).system = l.system := by
  cases h : l.constraints.get? id <;> simp [without, uninstall, h]

@[simp] theorem pins_without :
    (l.without id).pins = l.pins := by
  cases h : l.constraints.get? id <;> simp [without, uninstall, h]

@[simp] theorem constraints_without :
    (l.without id).constraints = l.constraints.erase id := by
  cases h : l.constraints.get? id with
  | none => simp [without, uninstall, h, OrderedMap.erase_of_get?_eq_none h]
  | some a => simp [without, uninstall, h]

theorem isActive_without_self
    (l : Layout K) (id : ConstraintId) :
    (l.without id).isActive id = false := by
  rw [isActive, OrderedMap.contains, constraints_without, OrderedMap.get?_erase, if_pos rfl]
  rfl

theorem owned_without_of_get?_eq_none
    (h : l.owned.get? e = none) :
    (l.without id).owned.get? e = none := by
  cases hid : l.constraints.get? id with
  | none => rw [without_of_get?_eq_none hid, h]
  | some a =>
      by_cases he : e = a.constraint.owner
      · subst he
        simp [without, uninstall, hid, OrderedMap.get?_modify, h]
      · simp [without, uninstall, hid, OrderedMap.get?_modify, he, h]

theorem ownedBy_without
    (hid : ∀ a, l.constraints.get? id = some a → id ∈ l.ownedBy e → a.constraint.owner = e) :
    (l.without id).ownedBy e =
      if l.isActive id then (l.ownedBy e).erase id else l.ownedBy e := by
  cases h : l.constraints.get? id with
  | none =>
      have hactive : l.isActive id = false := by simp [isActive, OrderedMap.contains, h]
      rw [without_of_get?_eq_none h, hactive, if_neg Bool.false_ne_true]
  | some a =>
      have hactive : l.isActive id = true := by simp [isActive, OrderedMap.contains, h]
      rw [hactive, if_pos rfl]
      simp only [ownedBy] at hid ⊢
      simp only [without, uninstall, h, Option.map_some, Option.getD_some, OrderedMap.get?_modify]
      by_cases he : e = a.constraint.owner
      · subst he
        cases howned : l.owned.get? a.constraint.owner with
        | none => simp
        | some ids => simp [OrderedSet.erase]
      · rw [if_neg he, List.erase_of_not_mem fun hmem => he (hid a h hmem).symm]

/--
An edit finds no constraint, or has the edited one in force, or leaves what it found out of force and
unmarked.
-/
theorem update_cases
    (l : Layout K) (id : ConstraintId) (edit : Constraint K → Constraint K) :
    (l.constraint? id = none ∧ l.update id edit = (.error (.unknownConstraint id), l)) ∨
      ∃ c, l.constraint? id = some c ∧
        ((∃ keys s, l.update id edit = (.ok (), (l.without id).enforced (edit c) keys s) ∧
            (l.without id).unmanaged? (edit c) = none) ∨
          ∃ cause s, l.update id edit =
            (.error cause, unmarkSystem { l.without id with solver := s } id)) := by
  unfold update
  rw [uninstall_eq]
  cases hid : l.constraint? id with
  | none => exact Or.inl ⟨rfl, rfl⟩
  | some c =>
      refine Or.inr ⟨c, rfl, ?_⟩
      rcases install_cases (l.without id) (edit c) with
        ⟨cause, s, heq, _⟩ | ⟨keys, s, heq, hmanaged, _⟩
      · refine Or.inr ⟨cause, s, ?_⟩
        simp only [Option.map_some, heq]
      · refine Or.inl ⟨keys, s, ?_, hmanaged⟩
        simp only [Option.map_some, heq]

theorem entities_update
    (l : Layout K) (id : ConstraintId) (edit : Constraint K → Constraint K) :
    (l.update id edit).2.entities = l.entities := by
  rcases update_cases l id edit with ⟨_, heq⟩ | ⟨c, _, ⟨keys, s, heq, _⟩ | ⟨cause, s, heq⟩⟩
  · rw [heq]
  · rw [heq]
    exact entities_without
  · rw [heq]
    exact entities_without

/-- Pinning does nothing, moves the active pin of the variable, or makes a new one. -/
theorem pin_steps
    (l : Layout K) (supply : IdSupply) (v : Variable) (x : K) :
    (l.pin supply v x).2.1 = l ∨
      (∃ id pins, l.pin? v = some id ∧
        (l.pin supply v x).2.1 = { (l.update id fun c => c.withOffset x).2 with pins := pins }) ∨
      (l.pin? v = none ∧
        ((l.pin supply v x).2.1 = (l.install (.toValue ⟨supply.next⟩ v .equal x)).2 ∨
          ∃ pins, (l.pin supply v x).2.1 =
            { (l.install (.toValue ⟨supply.next⟩ v .equal x)).2.markSystem ⟨supply.next⟩ with
              pins := pins })) := by
  unfold Layout.pin
  split
  · refine Or.inr ?_
    cases l.pin? v with
    | some id =>
        dsimp only
        unfold movePin
        rcases hupdate : l.update id (fun c => c.withOffset x) with ⟨cause | _, u⟩
        · exact Or.inl ⟨id, u.pins.erase v, rfl, by rw [hupdate]⟩
        · exact Or.inl ⟨id, u.pins, rfl, by rw [hupdate]⟩
    | none =>
        dsimp only [IdSupply.take]
        unfold newPin
        rcases l.install (.toValue ⟨supply.next⟩ v .equal x) with ⟨cause | _, u⟩
        · exact Or.inr ⟨rfl, Or.inl rfl⟩
        · exact Or.inr ⟨rfl, Or.inr ⟨u.pins.insert v ⟨supply.next⟩, rfl⟩⟩
  · exact Or.inl rfl

theorem entities_pin
    (l : Layout K) (supply : IdSupply) (v : Variable) (x : K) :
    (l.pin supply v x).2.1.entities = l.entities := by
  rcases pin_steps l supply v x with heq | ⟨id, pins, _, heq⟩ | ⟨_, heq | ⟨pins, heq⟩⟩
  · rw [heq]
  · rw [heq]
    exact entities_update l id _
  · rw [heq]
    exact entities_install l _
  · rw [heq]
    exact entities_install l _

end Uninstall

section Remove

variable {ids : List ConstraintId}

theorem remove_fst
    (l : Layout K) (id : ConstraintId) :
    (l.remove id).1 = l.constraint? id := by
  unfold remove
  rw [uninstall_eq]
  cases h : l.constraints.get? id <;> simp [constraint?, unmarkSystem, h]

theorem remove_snd
    (l : Layout K) (id : ConstraintId) :
    (l.remove id).2 = (l.unmarkSystem id).without id := by
  unfold remove
  rw [uninstall_eq]
  cases h : (l.unmarkSystem id).constraints.get? id with
  | none => simp [constraint?, h, without_of_get?_eq_none h]
  | some a => simp [constraint?, h]

@[simp] theorem settings_remove :
    (l.remove id).2.settings = l.settings := by
  rw [remove_snd, settings_without]
  rfl

@[simp] theorem entities_remove :
    (l.remove id).2.entities = l.entities := by
  rw [remove_snd, entities_without]
  rfl

@[simp] theorem system_remove :
    (l.remove id).2.system = l.system.erase id := by
  rw [remove_snd, system_without]
  rfl

@[simp] theorem pins_remove :
    (l.remove id).2.pins = l.pins := by
  rw [remove_snd, pins_without]
  rfl

@[simp] theorem constraints_remove :
    (l.remove id).2.constraints = l.constraints.erase id := by
  rw [remove_snd, constraints_without]
  rfl

theorem owned_remove_of_get?_eq_none
    (h : l.owned.get? e = none) :
    (l.remove id).2.owned.get? e = none := by
  rw [remove_snd]
  exact owned_without_of_get?_eq_none (l := l.unmarkSystem id) h

theorem removeAll_cons :
    l.removeAll (id :: ids) = (l.remove id).2.removeAll ids :=
  rfl

theorem removeAll_induction
    {P : Layout K → Prop}
    (hremove : ∀ l id, P l → P (l.remove id).2)
    (h : P l)
    (ids : List ConstraintId) :
    P (l.removeAll ids) := by
  induction ids generalizing l with
  | nil =>
      exact h
  | cons id ids ih =>
      exact ih (hremove l id h)

@[simp] theorem settings_removeAll :
    (l.removeAll ids).settings = l.settings :=
  removeAll_induction (P := fun u => u.settings = l.settings)
    (fun _ _ hu => settings_remove.trans hu) rfl ids

@[simp] theorem entities_removeAll :
    (l.removeAll ids).entities = l.entities :=
  removeAll_induction (P := fun u => u.entities = l.entities)
    (fun _ _ hu => entities_remove.trans hu) rfl ids

@[simp] theorem pins_removeAll :
    (l.removeAll ids).pins = l.pins :=
  removeAll_induction (P := fun u => u.pins = l.pins)
    (fun _ _ hu => pins_remove.trans hu) rfl ids

theorem owned_removeAll_of_get?_eq_none
    (h : l.owned.get? e = none) :
    (l.removeAll ids).owned.get? e = none :=
  removeAll_induction (P := fun u => u.owned.get? e = none)
    (fun _ _ hu => owned_remove_of_get?_eq_none hu) h ids

theorem constraints_removeAll
    (ids : List ConstraintId) :
    (l.removeAll ids).constraints = l.constraints.filter fun id _ => id ∉ ids := by
  induction ids generalizing l with
  | nil =>
      exact (OrderedMap.filter_eq_self _ fun _ _ _ => rfl).symm
  | cons i ids ih =>
      rw [removeAll_cons, ih, constraints_remove, OrderedMap.erase_eq_filter,
        OrderedMap.filter_filter]
      refine OrderedMap.filter_congr fun id _ _ => ?_
      rw [Bool.eq_iff_iff]
      simp [and_comm]

theorem get?_constraints_removeAll :
    (l.removeAll ids).constraints.get? id =
      if id ∈ ids then none else l.constraints.get? id := by
  rw [constraints_removeAll, OrderedMap.get?_filter]
  cases l.constraints.get? id with
  | none => exact (ite_self none).symm
  | some a =>
      rw [Option.filter_some]
      by_cases hid : id ∈ ids <;> simp [hid]

theorem mem_system_removeAll :
    id ∈ (l.removeAll ids).system.toList ↔ id ∈ l.system.toList ∧ id ∉ ids := by
  induction ids generalizing l with
  | nil =>
      simp [removeAll]
  | cons i ids ih =>
      rw [removeAll_cons, ih, system_remove, OrderedSet.mem_toList_erase, List.mem_cons, not_or]
      exact ⟨fun ⟨⟨hne, hmem⟩, hids⟩ => ⟨hmem, hne, hids⟩,
        fun ⟨hmem, hne, hids⟩ => ⟨⟨hne, hmem⟩, hids⟩⟩

/-- Removals that are listed as they are made. -/
theorem foldl_remove_snd
    {α : Type} (f : ConstraintId → Layout K → List α) (acc : List α × Layout K)
    (ids : List ConstraintId) :
    (ids.foldl (fun acc id => (acc.1 ++ f id acc.2, (acc.2.remove id).2)) acc).2 =
      acc.2.removeAll ids := by
  induction ids generalizing acc with
  | nil =>
      rfl
  | cons id ids ih =>
      exact ih _

theorem removeExternal_snd
    (l : Layout K) (e : Entity) :
    (l.removeExternal e).2 =
      l.removeAll ((l.ownedBy e).filter fun id => !l.system.contains id) :=
  foldl_remove_snd (fun id l => (l.remove id).1.toList) ([], l) _

end Remove

section Foreign

theorem unmanaged?_eq_none_iff :
    l.unmanaged? c = none ↔ ∀ e ∈ c.entities, l.isManaged e = true := by
  rw [unmanaged?, List.find?_eq_none]
  simp

theorem unmanaged?_congr
    {m : Layout K}
    (h : m.entities = l.entities) :
    m.unmanaged? c = l.unmanaged? c := by
  simp only [unmanaged?, isManaged, h]

theorem mem_foreign_iff :
    id ∈ (l.constraints.filter fun _ a => (l.unmanaged? a.constraint).isSome).keys ↔
      ∃ a, l.constraints.get? id = some a ∧ l.unmanaged? a.constraint ≠ none := by
  rw [OrderedMap.mem_keys_iff]
  simp [OrderedMap.get?_filter, Option.filter_eq_some_iff, Option.isSome_iff_ne_none]

/-- Dropping foreign constraints keeps those that speak of managed entities only. -/
theorem constraints_dropForeign
    (l : Layout K) :
    l.dropForeign.constraints =
      l.constraints.filter fun _ a => (l.unmanaged? a.constraint).isNone := by
  rw [dropForeign, constraints_removeAll]
  refine OrderedMap.filter_congr fun id a ha => ?_
  rw [Bool.eq_iff_iff, decide_eq_true_iff, mem_foreign_iff, Option.isNone_iff_eq_none]
  constructor
  · intro hid
    exact Classical.byContradiction fun hforeign => hid ⟨a, ha, hforeign⟩
  · rintro hnone ⟨b, hb, hforeign⟩
    exact hforeign (Option.some.inj (ha.symm.trans hb) ▸ hnone)

theorem get?_constraints_dropForeign
    {a : ActiveConstraint K} :
    l.dropForeign.constraints.get? id = some a ↔
      l.constraints.get? id = some a ∧ l.unmanaged? a.constraint = none := by
  rw [constraints_dropForeign, OrderedMap.get?_filter, Option.filter_eq_some_iff,
    Option.isNone_iff_eq_none]

end Foreign

section Adopt

variable {size : IntrinsicSize K} {sizes : PerAxis (List ConstraintId)}

theorem isManaged_iff :
    l.isManaged e = true ↔ ∃ r, l.entities.get? e = some r := by
  rw [isManaged, OrderedMap.contains, Option.isSome_iff_exists]

@[simp] theorem settings_adopt :
    (l.adopt e size sizes).settings = l.settings :=
  rfl

@[simp] theorem constraints_adopt :
    (l.adopt e size sizes).constraints = l.constraints :=
  rfl

@[simp] theorem system_adopt :
    (l.adopt e size sizes).system = l.system :=
  rfl

@[simp] theorem pins_adopt :
    (l.adopt e size sizes).pins = l.pins :=
  rfl

theorem entities_adopt :
    (l.adopt e size sizes).entities =
      l.entities.insert e
        ⟨(l.solver.addAccepted (Axis.all.flatMap (boxEquations e))).1, size, sizes⟩ :=
  rfl

theorem isManaged_adopt
    (other : Entity) :
    (l.adopt e size sizes).isManaged other = true ↔ other = e ∨ l.isManaged other = true := by
  simp only [isManaged_iff, entities_adopt, OrderedMap.get?_insert]
  by_cases h : other = e <;> simp [h]

@[simp] theorem ownedBy_adopt
    (other : Entity) :
    (l.adopt e size sizes).ownedBy other = l.ownedBy other := by
  simp only [ownedBy, adopt, OrderedMap.get?_alter]
  by_cases h : other = e <;> simp [h]

end Adopt

section Strike

/-- The layout once an entity is struck off with its box and its list. -/
def struck (l : Layout K) (e : Entity) (r : ManagedEntity K) : Layout K :=
  { l with
    entities := l.entities.erase e
    solver := l.solver.removeAll r.boxKeys
    owned := l.owned.erase e }

theorem ownedBy_struck
    (r : ManagedEntity K) (other : Entity) :
    (l.struck e r).ownedBy other = if other = e then [] else l.ownedBy other := by
  simp only [ownedBy, struck, OrderedMap.get?_erase]
  split <;> rfl

/-- What is left of a layout before the constraints that speak of a released entity are dropped. -/
def stripped (l : Layout K) (e : Entity) (r : ManagedEntity K) : Layout K :=
  let m := (l.struck e r).removeAll (l.ownedBy e)
  { m with
    pins := m.pins.filter fun v _ => v.entity ≠ e
    necessity := m.necessity.forget e }

theorem entities_stripped
    (r : ManagedEntity K) :
    (l.stripped e r).entities = l.entities.erase e :=
  entities_removeAll

theorem pins_stripped
    (r : ManagedEntity K) :
    (l.stripped e r).pins = l.pins.filter fun v _ => v.entity ≠ e := by
  simp only [stripped, pins_removeAll]
  rfl

theorem release_of_get?
    {r : ManagedEntity K}
    (h : l.entities.get? e = some r) :
    l.release e = (l.stripped e r).dropForeign := by
  rw [release, h]
  rfl

theorem release_of_get?_eq_none
    (h : l.entities.get? e = none) :
    l.release e = l := by
  rw [release, h]

theorem get?_entities_release
    (l : Layout K) (e f : Entity) :
    (l.release e).entities.get? f = if f = e then none else l.entities.get? f := by
  cases hr : l.entities.get? e with
  | none =>
      rw [release_of_get?_eq_none hr]
      split
      · next hf => rw [hf, hr]
      · rfl
  | some r =>
      rw [release_of_get? hr, dropForeign, entities_removeAll, entities_stripped,
        OrderedMap.get?_erase]

end Strike

section Sizes

variable {axis : Axis} {r : ManagedEntity K} {ids : List ConstraintId} {cs : List (Constraint K)}

/-- The constraints on record for the intrinsic size of an entity. -/
def sizeConstraintsOf (l : Layout K) (e : Entity) : List ConstraintId :=
  ((l.entities.get? e).map fun r => r.sizeConstraints.toList.flatten).getD []

theorem sizeConstraintsOf_of_get?
    {r : ManagedEntity K}
    (h : l.entities.get? e = some r) :
    l.sizeConstraintsOf e = r.sizeConstraints.toList.flatten := by
  rw [sizeConstraintsOf, h]
  rfl

theorem sizeConstraintsOf_congr
    {m : Layout K}
    (h : m.entities.get? e = l.entities.get? e) :
    m.sizeConstraintsOf e = l.sizeConstraintsOf e := by
  rw [sizeConstraintsOf, sizeConstraintsOf, h]

theorem exists_of_mem_sizeConstraintsOf
    (h : id ∈ l.sizeConstraintsOf e) :
    ∃ r, l.entities.get? e = some r ∧ id ∈ r.sizeConstraints.toList.flatten := by
  cases hr : l.entities.get? e with
  | none =>
      rw [sizeConstraintsOf, hr] at h
      cases h
  | some r => exact ⟨r, rfl, sizeConstraintsOf_of_get? hr ▸ h⟩

theorem isManaged_modify
    (f : ManagedEntity K → ManagedEntity K) (other : Entity) :
    Layout.isManaged { l with entities := l.entities.modify e f } other = l.isManaged other := by
  simp only [isManaged, OrderedMap.contains, OrderedMap.get?_modify]
  split
  · next h => rw [h, Option.isSome_map]
  · rfl

theorem sizeConstraintsOf_modify
    (f : ManagedEntity K → ManagedEntity K) (other : Entity) :
    sizeConstraintsOf { l with entities := l.entities.modify e f } other =
      if other = e then
        ((l.entities.get? e).map fun r => (f r).sizeConstraints.toList.flatten).getD []
      else l.sizeConstraintsOf other := by
  simp only [sizeConstraintsOf, OrderedMap.get?_modify]
  split <;> simp [Function.comp_def]

theorem mem_sizeConstraintsOf_stored
    (hr : l.entities.get? e = some r) :
    id ∈ (l.storeSizeConstraints e axis ids).sizeConstraintsOf e ↔
      id ∈ ids ∨ ∃ other, other ≠ axis ∧ id ∈ r.sizeConstraints.get other := by
  rw [storeSizeConstraints, sizeConstraintsOf_modify, if_pos rfl, hr, Option.map_some,
    Option.getD_some, PerAxis.mem_flatten_toList]
  constructor
  · rintro ⟨other, hmem⟩
    by_cases hother : other = axis
    · subst hother
      rw [PerAxis.get_set_self] at hmem
      exact Or.inl hmem
    · rw [PerAxis.get_set_of_ne _ _ hother] at hmem
      exact Or.inr ⟨other, hother, hmem⟩
  · rintro (hmem | ⟨other, hother, hmem⟩)
    · exact ⟨axis, by rwa [PerAxis.get_set_self]⟩
    · exact ⟨other, by rwa [PerAxis.get_set_of_ne _ _ hother]⟩

theorem get?_entities_storeIntrinsic
    (hr : l.entities.get? e = some r)
    (axis : Axis) (a : AxisIntrinsic K) :
    (l.storeIntrinsic e axis a).entities.get? e =
      some { r with intrinsic := r.intrinsic.set axis a } := by
  rw [storeIntrinsic, OrderedMap.get?_modify, if_pos rfl, hr]
  rfl

/-- The layout with a new intrinsic size and without the constraints made from the old one. -/
def cleared (l : Layout K) (e : Entity) (axis : Axis) (r : ManagedEntity K) (a : AxisIntrinsic K) :
    Layout K :=
  let m := ((l.storeIntrinsic e axis a).storeSizeConstraints e axis []).removeAll
    (r.sizeConstraints.get axis)
  { m with necessity := m.necessity.force e axis a.requiresMeasurement }

theorem get?_entities_cleared
    (hr : l.entities.get? e = some r)
    (axis : Axis) (a : AxisIntrinsic K) :
    (l.cleared e axis r a).entities.get? e =
      some ⟨r.boxKeys, r.intrinsic.set axis a, r.sizeConstraints.set axis []⟩ := by
  have hentities : (l.cleared e axis r a).entities =
      ((l.storeIntrinsic e axis a).storeSizeConstraints e axis []).entities := entities_removeAll
  rw [hentities, storeSizeConstraints, OrderedMap.get?_modify, if_pos rfl,
    get?_entities_storeIntrinsic hr]
  rfl

theorem changeIntrinsic_of_get?_eq_none
    (h : l.entities.get? e = none)
    (supply : IdSupply) (axis : Axis) (change : IntrinsicChange K) :
    l.changeIntrinsic supply e axis change = (.ok (), l, supply) := by
  rw [changeIntrinsic, h]

theorem changeIntrinsic_of_get?
    (h : l.entities.get? e = some r)
    (supply : IdSupply) (axis : Axis) (change : IntrinsicChange K) :
    l.changeIntrinsic supply e axis change =
      if ((r.intrinsic.get axis).change change).sameAs (r.intrinsic.get axis) then
        (.ok (), l.storeIntrinsic e axis ((r.intrinsic.get axis).change change), supply)
      else
        let (cs, supply) := ((r.intrinsic.get axis).change change).constraints supply e axis
        let (result, installed, m) :=
          (l.cleared e axis r ((r.intrinsic.get axis).change change)).installSystem cs
        (result, m.storeSizeConstraints e axis installed, supply) := by
  rw [changeIntrinsic, h]
  rfl

theorem installSystem_of_ok
    {m : Layout K}
    (h : l.install c = (.ok (), m)) :
    l.installSystem (c :: cs) =
      (((m.markSystem c.id).installSystem cs).1,
        c.id :: ((m.markSystem c.id).installSystem cs).2.1,
        ((m.markSystem c.id).installSystem cs).2.2) := by
  rw [installSystem, h]

theorem installSystem_of_error
    {m : Layout K} {cause : LayoutError K}
    (h : l.install c = (.error cause, m)) :
    l.installSystem (c :: cs) =
      (.error cause, (m.installSystem cs).2.1, (m.installSystem cs).2.2) := by
  rw [installSystem, h]

theorem entities_installSystem
    (l : Layout K) (cs : List (Constraint K)) :
    (l.installSystem cs).2.2.entities = l.entities := by
  induction cs generalizing l with
  | nil =>
      rfl
  | cons c cs ih =>
      rcases install_cases l c with ⟨cause, s, heq, _⟩ | ⟨keys, s, heq, _⟩
      · rw [installSystem_of_error heq]
        exact ih _
      · rw [installSystem_of_ok heq]
        exact ih _

theorem installSystem_sublist
    (l : Layout K) (cs : List (Constraint K)) :
    (l.installSystem cs).2.1.Sublist (cs.map Constraint.id) := by
  induction cs generalizing l with
  | nil =>
      exact List.Sublist.refl _
  | cons c cs ih =>
      rcases install_cases l c with ⟨cause, s, heq, _⟩ | ⟨keys, s, heq, _⟩
      · rw [installSystem_of_error heq]
        exact (ih _).cons _
      · rw [installSystem_of_ok heq]
        exact (ih _).cons_cons _

end Sizes

end Layout
end LinearLayout
