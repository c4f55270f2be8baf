import LinearLayout.Proofs.Hierarchy.Reachable
import LinearLayout.Proofs.Layout.Sessions

/-!
# Splits are partitions

A split pulls constraints out by their owners, lets the new layout refuse what reaches outside, and
drops what reaches inside from the layout that stays.  The two passes together put every constraint
where all its entities are, and nowhere if they are on both sides.
-/

namespace LinearLayout
namespace Layout

variable {K : Type} [Scalar K] {l : Layout K} {names : Names} {id : ConstraintId}
  {c : Constraint K} {e : Entity}

section Active

variable {m : Layout K}

theorem isSome_constraint?
    (l : Layout K) (id : ConstraintId) :
    (l.constraint? id).isSome = l.isActive id := by
  rw [constraint?, Option.isSome_map, isActive, OrderedMap.contains]

theorem constraint?_eq_none_iff :
    l.constraint? id = none ↔ l.isActive id = false := by
  rw [← isSome_constraint?, Option.isSome_eq_false_iff, Option.isNone_iff_eq_none]

theorem isActive_of_constraint?
    (h : l.constraint? id = some c) :
    l.isActive id = true := by
  rw [← isSome_constraint?, h, Option.isSome_some]

theorem constraint?_congr
    (h : m.constraints.get? id = l.constraints.get? id) :
    m.constraint? id = l.constraint? id := by
  rw [constraint?, constraint?, h]

theorem isActive_congr
    (h : m.constraints.get? id = l.constraints.get? id) :
    m.isActive id = l.isActive id := by
  rw [← isSome_constraint?, ← isSome_constraint?, constraint?_congr h]

theorem constraint?_enforced
    (keys : List EquationKey) (s : Solver K)
    (hid : c.id = id) :
    (l.enforced c keys s).constraint? id = some c := by
  rw [constraint?, get?_constraints_enforced, if_pos hid.symm]
  rfl

theorem constraint?_enforced_of_ne
    (keys : List EquationKey) (s : Solver K)
    (hid : c.id ≠ id) :
    (l.enforced c keys s).constraint? id = l.constraint? id :=
  constraint?_congr ((get?_constraints_enforced id).trans (if_neg hid.symm))

end Active

section Arrivals

variable {m : Moving K} {ms : List (Moving K)}

/-- The constraints that the solver refuses while they arrive one after the other. -/
def refusals (l : Layout K) : List (Moving K) → List ConstraintId
  | [] => []
  | m :: ms =>
    match (l.install m.constraint).1 with
    | .error (.infeasible _ _) => m.constraint.id :: (l.receive m).refusals ms
    | _ => (l.receive m).refusals ms

theorem mem_of_mem_refusals
    (h : id ∈ l.refusals ms) :
    id ∈ ms.map fun m => m.constraint.id := by
  induction ms generalizing l with
  | nil =>
      cases h
  | cons m ms ih =>
      rw [refusals] at h
      rw [List.map_cons, List.mem_cons]
      split at h
      · rcases List.mem_cons.1 h with h | h
        · exact Or.inl h
        · exact Or.inr (ih h)
      · exact Or.inr (ih h)

/-- Other names than that of a refused constraint are refused later or not at all. -/
theorem mem_refusals_cons
    (hne : id ≠ m.constraint.id) :
    id ∈ l.refusals (m :: ms) ↔ id ∈ (l.receive m).refusals ms := by
  rw [refusals]
  split
  · rw [List.mem_cons, or_iff_right hne]
  · rfl

theorem get?_constraints_receive_of_ne
    (hne : id ≠ m.constraint.id) :
    (l.receive m).constraints.get? id = l.constraints.get? id := by
  rcases receive_cases l m with ⟨s, heq, _⟩ | ⟨keys, s, _, _, heq⟩
  · rw [heq]
  · rw [heq]
    have hother : (l.enforced m.constraint keys s).constraints.get? id = l.constraints.get? id :=
      (get?_constraints_enforced id).trans (if_neg hne)
    split <;> exact hother

theorem mem_system_receive_of_ne
    (hne : id ≠ m.constraint.id) :
    id ∈ (l.receive m).system.toList ↔ id ∈ l.system.toList := by
  rcases receive_cases l m with ⟨s, heq, _⟩ | ⟨keys, s, _, _, heq⟩
  · rw [heq]
  · rw [heq]
    split
    · exact OrderedSet.mem_toList_insert.trans (or_iff_left hne)
    · rfl

/-- Arrivals leave the constraints and the marks of other names alone. -/
theorem receiveAll_of_not_mem
    (h : id ∉ ms.map fun m => m.constraint.id) :
    (ms.foldl receive l).constraints.get? id = l.constraints.get? id ∧
      (id ∈ (ms.foldl receive l).system.toList ↔ id ∈ l.system.toList) := by
  induction ms generalizing l with
  | nil =>
      exact ⟨rfl, Iff.rfl⟩
  | cons m ms ih =>
      rw [List.map_cons, List.mem_cons, not_or] at h
      obtain ⟨hconstraints, hsystem⟩ := ih (l := l.receive m) h.2
      exact ⟨hconstraints.trans (get?_constraints_receive_of_ne h.1),
        hsystem.trans (mem_system_receive_of_ne h.1)⟩

/-- A constraint comes into force, with its mark, unless it is foreign or the solver refuses it. -/
structure Arrives (l : Layout K) (refused : List ConstraintId) (m : Moving K) (after : Layout K) :
    Prop where
  constraint : after.constraint? m.constraint.id =
    if l.unmanaged? m.constraint = none ∧ m.constraint.id ∉ refused then some m.constraint
    else none
  system : after.isActive m.constraint.id = true →
    (m.constraint.id ∈ after.system.toList ↔
      m.isSystem = true ∨ m.constraint.id ∈ l.system.toList)

theorem arrives_first
    (hnew : l.isActive m.constraint.id = false)
    (hlater : m.constraint.id ∉ ms.map fun m => m.constraint.id) :
    Arrives l (l.refusals (m :: ms)) m (l.receive m) := by
  have hnone := constraint?_eq_none_iff.2 hnew
  have htail : m.constraint.id ∉ (l.receive m).refusals ms :=
    fun hmem => hlater (mem_of_mem_refusals hmem)
  unfold refusals
  cases hforeign : l.unmanaged? m.constraint with
  | some e =>
      have hinstall : l.install m.constraint = (.error (.notManaged e), l) := by
        rw [install, hforeign]
      have hsame : l.receive m = l := by rw [receive, hinstall]
      refine ⟨?_, fun hactive => ?_⟩
      · rw [hsame, hnone, hforeign, if_neg fun h => nomatch h.1]
      · rw [hsame, hnew] at hactive
        cases hactive
  | none =>
      rcases hadd : l.solver.addAll [] m.constraint.equations with ⟨reason | keys, s⟩
      · have hinstall : l.install m.constraint =
            (.error (.infeasible m.constraint reason), { l with solver := s }) := by
          rw [install, hforeign, hadd]
        have hsame : l.receive m = { l with solver := s } := by rw [receive, hinstall]
        have hconstraint : (l.receive m).constraint? m.constraint.id = none := by
          rw [hsame]
          exact hnone
        refine ⟨?_, fun hactive => ?_⟩
        · rw [hinstall, hconstraint, if_neg fun h => h.2 List.mem_cons_self]
        · rw [constraint?_eq_none_iff.1 hconstraint] at hactive
          cases hactive
      · have hinstall : l.install m.constraint = (.ok (), l.enforced m.constraint keys s) := by
          rw [install, hforeign, hadd]
          rfl
        have hforce : (l.enforced m.constraint keys s).constraint? m.constraint.id =
            some m.constraint := constraint?_enforced keys s rfl
        rw [hinstall]
        refine ⟨?_, fun _ => ?_⟩
        · rw [if_pos ⟨hforeign, htail⟩, receive, hinstall]
          dsimp only
          split <;> exact hforce
        · rw [receive, hinstall]
          dsimp only
          split
          · next hmark => simp [markSystem, hmark]
          · next hmark => simp [enforced, hmark]

/-- Every one of several arrivals of different names fares as if the others did not matter. -/
theorem arrives
    (hdistinct : (ms.map fun m => m.constraint.id).Nodup)
    (hnew : ∀ m ∈ ms, l.isActive m.constraint.id = false)
    (hm : m ∈ ms) :
    Arrives l (l.refusals ms) m (ms.foldl receive l) := by
  induction ms generalizing l with
  | nil =>
      cases hm
  | cons first ms ih =>
      rw [List.map_cons, List.nodup_cons] at hdistinct
      rw [List.foldl_cons]
      rcases List.mem_cons.1 hm with rfl | hm
      · have hfirst := arrives_first (hnew m List.mem_cons_self) hdistinct.1
        obtain ⟨hconstraints, hsystem⟩ := receiveAll_of_not_mem (l := l.receive m) hdistinct.1
        refine ⟨?_, fun hactive => hsystem.trans (hfirst.system ?_)⟩
        · rw [constraint?_congr hconstraints]
          exact hfirst.constraint
        · rwa [isActive_congr hconstraints] at hactive
      · have hne : ∀ x ∈ ms, x.constraint.id ≠ first.constraint.id := fun x hx heq =>
          hdistinct.1 (heq ▸ List.mem_map_of_mem hx)
        have hrest := ih (l := l.receive first) hdistinct.2 (fun x hx => by
          rw [isActive_congr (get?_constraints_receive_of_ne (hne x hx))]
          exact hnew x (List.mem_cons_of_mem first hx)) hm
        refine ⟨?_, fun hactive => ?_⟩
        · rw [hrest.constraint]
          simp only [unmanaged?_congr (entities_receive l first), mem_refusals_cons (hne m hm)]
        · rw [hrest.system hactive, mem_system_receive_of_ne (hne m hm)]

end Arrivals

section Sides

variable {leaving : List Entity} {ids : List ConstraintId} {pair : Layout K × Layout K}
  {root : Entity} {tree : ChildRelation} {v : Variable}

/-- The constraints that the solver of the new layout refuses in the course of a split. -/
def refusedBySplit (l : Layout K) (root : Entity) (tree : ChildRelation) : List ConstraintId :=
  let leaving := tree.subtree root
  let (moving, rest) := l.takeAllOwned leaving
  (leaving.foldl transfer (rest, new l.settings)).2.refusals moving

/-- The names of the constraints that leaving entities own, and both layouts after the transfer. -/
structure Parts (l : Layout K) (leaving : List Entity) (ids : List ConstraintId)
    (pair : Layout K × Layout K) : Prop where
  distinct : ids.Nodup
  owned : ∀ i, i ∈ ids ↔ ∃ e ∈ leaving, i ∈ l.activeOf e
  transferred : Transferred (l.removeAll ids) leaving pair

/-- The layout that stays, from what is left of it after the transfer. -/
def staying (leaving : List Entity) (left : Layout K) : Layout K :=
  Layout.dropForeign { left with pins := left.pins.filter fun v _ => !leaving.contains v.entity }

/-- The new layout, from what it is after the transfer and from the constraints that arrive. -/
def departed (leaving : List Entity) (pair : Layout K × Layout K) (moving : List (Moving K)) :
    Layout K :=
  { moving.foldl receive pair.2 with
    pins := pair.1.pins.filter fun v _ => leaving.contains v.entity }

theorem exists_parts
    (h : ∀ e, Lists l e)
    (root : Entity) (tree : ChildRelation) :
    ∃ ids pair, Parts l (tree.subtree root) ids pair ∧
      l.split root tree = (staying (tree.subtree root) pair.1,
        departed (tree.subtree root) pair (ids.filterMap l.moved)) ∧
      l.refusedBySplit root tree = pair.2.refusals (ids.filterMap l.moved) := by
  obtain ⟨ids, hdistinct, htaken, hids⟩ := exists_taken h (tree.subtree root)
  have hpair := transferred_foldl l.settings fun e he => ownedBy_removeAll_eq_nil h hids he
  refine ⟨ids, _, ⟨hdistinct, hids, hpair⟩, ?_, ?_⟩
  · simp only [Layout.split, htaken]
    rfl
  · simp only [refusedBySplit, htaken]

/-- Active constraints are gone, and marks are lost exactly with their constraints. -/
structure OnlyRemoved (l m : Layout K) : Prop where
  active : ∀ id, m.isActive id = true → l.isActive id = true
  system : ∀ id, id ∈ m.system.toList ↔
    id ∈ l.system.toList ∧ (l.isActive id = true → m.isActive id = true)

section OnlyRemoved

variable {m n : Layout K}

theorem OnlyRemoved.trans
    (h : OnlyRemoved l m)
    (h' : OnlyRemoved m n) :
    OnlyRemoved l n where
  active := fun i hi => h.active i (h'.active i hi)
  system := by
    intro i
    rw [h'.system, h.system, and_assoc]
    refine and_congr_right fun _ => ⟨fun hkept hl => hkept.2 (hkept.1 hl), fun hkept => ?_⟩
    exact ⟨fun hl => h'.active i (hkept hl), fun hm => hkept (h.active i hm)⟩

theorem OnlyRemoved.congr
    (h : OnlyRemoved l m)
    (hconstraints : n.constraints = m.constraints)
    (hsystem : n.system = m.system) :
    OnlyRemoved l n := by
  have hactive : ∀ i, n.isActive i = m.isActive i := fun i => by
    rw [isActive, isActive, hconstraints]
  refine ⟨fun i hi => h.active i ((hactive i).symm.trans hi), fun i => ?_⟩
  rw [hsystem, hactive, h.system]

theorem onlyRemoved_removeAll
    {is : List ConstraintId}
    (his : ∀ i ∈ is, l.isActive i = true) :
    OnlyRemoved l (l.removeAll is) := by
  have hactive : ∀ i, (l.removeAll is).isActive i = true ↔ i ∉ is ∧ l.isActive i = true := by
    intro i
    rw [isActive_iff, isActive_iff, get?_constraints_removeAll]
    by_cases hi : i ∈ is <;> simp [hi]
  refine ⟨fun i hi => ((hactive i).1 hi).2, fun i => ?_⟩
  rw [mem_system_removeAll, hactive]
  exact and_congr_right fun _ => ⟨fun hi hl => ⟨hi, hl⟩, fun hkept hi => (hkept (his i hi)).1 hi⟩

theorem onlyRemoved_dropForeign
    (l : Layout K) :
    OnlyRemoved l l.dropForeign := by
  refine onlyRemoved_removeAll fun i hi => ?_
  obtain ⟨a, ha, _⟩ := mem_foreign_iff.1 hi
  exact isActive_iff.2 ⟨a, ha⟩

end OnlyRemoved

section Staying

theorem entities_staying :
    (staying leaving l).entities = l.entities :=
  entities_removeAll

theorem get?_pins_staying
    {i : ConstraintId} :
    (staying leaving l).pins.get? v = some i ↔ l.pins.get? v = some i ∧ v.entity ∉ leaving := by
  rw [staying, dropForeign, pins_removeAll, OrderedMap.get?_filter, Option.filter_eq_some_iff]
  simp

theorem Parts.get?_entities
    (h : Parts l leaving ids pair)
    (e : Entity) :
    (staying leaving pair.1).entities.get? e =
      if e ∈ leaving then none else l.entities.get? e := by
  rw [entities_staying, h.transferred.entities, entities_removeAll]

theorem Parts.isManaged_left
    (h : Parts l leaving ids pair) :
    pair.1.isManaged e = true ↔ l.isManaged e = true ∧ e ∉ leaving := by
  rw [isManaged_iff, isManaged_iff, h.transferred.entities, entities_removeAll]
  split <;> simp_all

/-- The constraints that stay are those that no leaving entity owns or is mentioned by. -/
theorem Parts.get?_constraints_staying
    (h : Parts l leaving ids pair)
    (hclosed : Closed l)
    {a : ActiveConstraint K} :
    (staying leaving pair.1).constraints.get? id = some a ↔
      l.constraints.get? id = some a ∧ ∀ e ∈ a.constraint.entities, e ∉ leaving := by
  have hleft : pair.1.constraints.get? id = if id ∈ ids then none else l.constraints.get? id := by
    rw [h.transferred.constraints, get?_constraints_removeAll]
  rw [staying, get?_constraints_dropForeign]
  constructor
  · rintro ⟨ha, hmanaged⟩
    rw [hleft] at ha
    split at ha
    · cases ha
    · exact ⟨ha, fun e he => (h.isManaged_left.1 (unmanaged?_eq_none_iff.1 hmanaged e he)).2⟩
  · rintro ⟨ha, houtside⟩
    have hid : id ∉ ids := fun hid => by
      obtain ⟨e, he, hmem⟩ := (h.owned id).1 hid
      obtain ⟨b, hb, rfl⟩ := mem_activeOf_iff.1 hmem
      cases ha.symm.trans hb
      exact houtside _ (Constraint.owner_mem_entities _) he
    refine ⟨hleft.trans ((if_neg hid).trans ha), unmanaged?_eq_none_iff.2 fun e he => ?_⟩
    exact h.isManaged_left.2 ⟨hclosed id a ha e he, houtside e he⟩

theorem Parts.onlyRemoved_staying
    (h : Parts l leaving ids pair) :
    OnlyRemoved l (staying leaving pair.1) := by
  have howned : OnlyRemoved l (l.removeAll ids) := onlyRemoved_removeAll fun i hi => by
    obtain ⟨e, _, hmem⟩ := (h.owned i).1 hi
    obtain ⟨a, ha, _⟩ := mem_activeOf_iff.1 hmem
    exact isActive_iff.2 ⟨a, ha⟩
  have hleft : OnlyRemoved l
      { pair.1 with pins := pair.1.pins.filter fun v _ => !leaving.contains v.entity } :=
    howned.congr h.transferred.constraints h.transferred.system
  exact hleft.trans (onlyRemoved_dropForeign _)

end Staying

section Departed

variable {moving : List (Moving K)}

theorem entities_departed :
    (departed leaving pair moving).entities = pair.2.entities :=
  entities_receiveAll _ _

theorem get?_pins_departed
    {i : ConstraintId} :
    (departed leaving pair moving).pins.get? v = some i ↔
      pair.1.pins.get? v = some i ∧ v.entity ∈ leaving := by
  rw [departed, OrderedMap.get?_filter, Option.filter_eq_some_iff]
  simp

theorem Parts.kept_departed
    (h : Parts l leaving ids pair)
    (e : Entity) :
    ((departed leaving pair moving).entities.get? e).map ManagedEntity.kept =
      if e ∈ leaving then (l.entities.get? e).map ManagedEntity.kept else none := by
  rw [entities_departed, h.transferred.part_entities, entities_removeAll]

theorem Parts.isManaged_right
    (h : Parts l leaving ids pair) :
    pair.2.isManaged e = true ↔ l.isManaged e = true ∧ e ∈ leaving := by
  have hkept := h.transferred.part_entities e
  rw [entities_removeAll] at hkept
  have hmanaged : ∀ m : Layout K, m.isManaged e =
      ((m.entities.get? e).map ManagedEntity.kept).isSome := fun m => by
    rw [isManaged, OrderedMap.contains, Option.isSome_map]
  rw [hmanaged pair.2, hmanaged l, hkept]
  split <;> simp_all

/-- A constraint of a leaving entity is on its way with the mark that it had. -/
theorem Parts.mem_moving
    (h : Parts l leaving ids pair)
    (hc : l.constraint? id = some c)
    (howner : c.owner ∈ leaving) :
    (⟨c, l.system.contains id⟩ : Moving K) ∈ ids.filterMap l.moved := by
  obtain ⟨a, ha, rfl⟩ := Option.map_eq_some_iff.1 hc
  refine List.mem_filterMap.2 ⟨id, (h.owned id).2 ⟨_, howner, ?_⟩, ?_⟩
  · exact mem_activeOf_iff.2 ⟨a, ha, rfl⟩
  · rw [moved, hc]
    rfl

theorem Parts.arrives
    (h : Parts l leaving ids pair)
    (hnamed : Named names l)
    {m : Moving K}
    (hm : m ∈ ids.filterMap l.moved) :
    Arrives pair.2 (pair.2.refusals (ids.filterMap l.moved)) m
      (departed leaving pair (ids.filterMap l.moved)) := by
  have harrives := Layout.arrives (h.distinct.sublist (map_id_moved_sublist hnamed ids))
    (fun m _ => by rw [isActive, h.transferred.part_constraints]; rfl) hm
  exact ⟨harrives.constraint, harrives.system⟩

/-- What is active in the new layout has arrived there. -/
theorem Parts.exists_moving
    (h : Parts l leaving ids pair)
    (hnamed : Named names l)
    (hactive : (departed leaving pair (ids.filterMap l.moved)).isActive id = true) :
    ∃ m ∈ ids.filterMap l.moved, m.constraint.id = id ∧ l.constraint? id = some m.constraint ∧
      m.isSystem = l.system.contains id := by
  have hmem : id ∈ (ids.filterMap l.moved).map fun m => m.constraint.id := by
    refine Classical.byContradiction fun hnot => ?_
    obtain ⟨a, ha⟩ := isActive_iff.1 hactive
    have hnone := (receiveAll_of_not_mem (l := pair.2) hnot).1
    rw [h.transferred.part_constraints] at hnone
    exact nomatch hnone.symm.trans ha
  obtain ⟨m, hm, rfl⟩ := List.mem_map.1 hmem
  obtain ⟨a, ha, hconstraint, hsystem, _⟩ := exists_of_mem_moved hnamed hm
  refine ⟨m, hm, rfl, ?_, hsystem⟩
  rw [constraint?, ha, Option.map_some, hconstraint]

/-- The constraints that have left are those all whose entities left, unless they were refused. -/
theorem Parts.constraint?_departed
    (h : Parts l leaving ids pair)
    (hnamed : Named names l)
    (hclosed : Closed l) :
    (departed leaving pair (ids.filterMap l.moved)).constraint? id = some c ↔
      l.constraint? id = some c ∧ (∀ e ∈ c.entities, e ∈ leaving) ∧
        id ∉ pair.2.refusals (ids.filterMap l.moved) := by
  constructor
  · intro hc
    obtain ⟨m, hm, rfl, hold, _⟩ := h.exists_moving hnamed (isActive_of_constraint? hc)
    have hforce := (h.arrives hnamed hm).constraint
    rw [hc] at hforce
    split at hforce
    · next hwelcome =>
      cases hforce
      refine ⟨hold, fun e he => ?_, hwelcome.2⟩
      exact (h.isManaged_right.1 (unmanaged?_eq_none_iff.1 hwelcome.1 e he)).2
    · cases hforce
  · rintro ⟨hc, hinside, hwelcome⟩
    have hm := h.mem_moving hc (hinside _ c.owner_mem_entities)
    obtain ⟨a, ha, rfl⟩ := Option.map_eq_some_iff.1 hc
    have hid := (hnamed id a ha).1
    have hmanaged : pair.2.unmanaged? a.constraint = none :=
      unmanaged?_eq_none_iff.2 fun e he =>
        h.isManaged_right.2 ⟨hclosed id a ha e he, hinside e he⟩
    have hforce := (h.arrives hnamed hm).constraint
    dsimp only at hforce
    rwa [hid, if_pos ⟨hmanaged, hwelcome⟩] at hforce

/-- The new layout marks nothing before it is in force. -/
theorem Parts.isActive_of_mem_system
    (h : Parts l leaving ids pair)
    (hnamed : Named names l)
    (hid : id ∈ (departed leaving pair (ids.filterMap l.moved)).system.toList) :
    (departed leaving pair (ids.filterMap l.moved)).isActive id = true := by
  have hempty : Filed names (fun _ => False) (fun _ => True) pair.2 := h.transferred.filed_part
  have hmoving : ∀ m ∈ ids.filterMap l.moved,
      names m.constraint.id = some m.constraint.blueprint := by
    intro m hm
    obtain ⟨a, ha, hconstraint, _⟩ := exists_of_mem_moved hnamed hm
    exact hconstraint ▸ (hnamed _ a ha).2
  have hreceived := hempty.receiveAll hmoving fun _ _ _ _ _ => Or.inr trivial
  exact (hreceived.vouched id hid not_false).1

theorem Parts.mem_system_departed
    (h : Parts l leaving ids pair)
    (hnamed : Named names l) :
    id ∈ (departed leaving pair (ids.filterMap l.moved)).system.toList ↔
      id ∈ l.system.toList ∧
        (departed leaving pair (ids.filterMap l.moved)).isActive id = true := by
  have hmark : (departed leaving pair (ids.filterMap l.moved)).isActive id = true →
      (id ∈ (departed leaving pair (ids.filterMap l.moved)).system.toList ↔
        id ∈ l.system.toList) := by
    intro hactive
    obtain ⟨m, hm, rfl, _, hmark⟩ := h.exists_moving hnamed hactive
    rw [(h.arrives hnamed hm).system hactive, h.transferred.part_system, hmark,
      OrderedSet.contains_eq_true]
    exact or_iff_left List.not_mem_nil
  constructor
  · intro hid
    have hactive := h.isActive_of_mem_system hnamed hid
    exact ⟨(hmark hactive).1 hid, hactive⟩
  · exact fun hid => (hmark hid.2).2 hid.1

end Departed

/-- A layout in two parts: what is on record of entities and constraints is where it belongs. -/
structure Partition (l : Layout K) (inside : Entity → Prop) (refused : List ConstraintId)
    (rest part : Layout K) : Prop where
  managed_rest : ∀ e, rest.isManaged e = true ↔ l.isManaged e = true ∧ ¬ inside e
  managed_part : ∀ e, part.isManaged e = true ↔ l.isManaged e = true ∧ inside e
  /-- The constraints that stay are those all whose entities stay. -/
  constraints_rest : ∀ id c, rest.constraint? id = some c ↔
    l.constraint? id = some c ∧ ∀ e ∈ c.entities, ¬ inside e
  /-- The constraints that leave are those all whose entities leave, unless they are refused. -/
  constraints_part : ∀ id c, part.constraint? id = some c ↔
    l.constraint? id = some c ∧ (∀ e ∈ c.entities, inside e) ∧ id ∉ refused
  /-- Marks go with their constraints; one whose constraint was gone before is left behind. -/
  marks_rest : ∀ id, id ∈ rest.system.toList ↔
    id ∈ l.system.toList ∧ (l.isActive id = true → rest.isActive id = true)
  marks_part : ∀ id, id ∈ part.system.toList ↔ id ∈ l.system.toList ∧ part.isActive id = true
  pins_rest : ∀ v id, rest.pins.get? v = some id ↔ l.pins.get? v = some id ∧ ¬ inside v.entity
  pins_part : ∀ v id, part.pins.get? v = some id ↔ l.pins.get? v = some id ∧ inside v.entity
  /-- Intrinsic sizes and the names of the constraints made from them. -/
  sizes_rest : ∀ e, ¬ inside e →
    (rest.entities.get? e).map ManagedEntity.kept = (l.entities.get? e).map ManagedEntity.kept
  sizes_part : ∀ e, inside e →
    (part.entities.get? e).map ManagedEntity.kept = (l.entities.get? e).map ManagedEntity.kept

theorem Registered.split_partition
    (h : Registered names l)
    (root : Entity) (tree : ChildRelation) :
    Partition l (tree.Reaches root) (l.refusedBySplit root tree) (l.split root tree).1
      (l.split root tree).2 := by
  obtain ⟨ids, pair, hparts, hsplit, hrefused⟩ := exists_parts h.lists root tree
  have hinside : ∀ e, tree.Reaches root e ↔ e ∈ tree.subtree root := fun e =>
    ChildRelation.mem_subtree_iff.symm
  rw [hsplit, hrefused]
  constructor
  · intro e
    rw [isManaged_iff, isManaged_iff, hparts.get?_entities, hinside]
    split <;> simp_all
  · intro e
    rw [isManaged, entities_departed, hinside]
    exact hparts.isManaged_right
  · intro id c
    simp only [hinside, constraint?, Option.map_eq_some_iff,
      hparts.get?_constraints_staying h.closed]
    constructor
    · rintro ⟨a, ⟨ha, hout⟩, hc⟩
      exact ⟨⟨a, ha, hc⟩, hc ▸ hout⟩
    · rintro ⟨⟨a, ha, hc⟩, hout⟩
      exact ⟨a, ⟨ha, hc ▸ hout⟩, hc⟩
  · intro id c
    simp only [hinside]
    exact hparts.constraint?_departed h.named h.closed
  · exact hparts.onlyRemoved_staying.system
  · exact fun id => hparts.mem_system_departed h.named
  · intro v id
    rw [get?_pins_staying, hparts.transferred.pins, pins_removeAll, hinside]
  · intro v id
    rw [get?_pins_departed, hparts.transferred.pins, pins_removeAll, hinside]
  · intro e he
    rw [hparts.get?_entities, if_neg fun hmem => he ((hinside e).2 hmem)]
  · intro e he
    rw [hparts.kept_departed, if_pos ((hinside e).1 he)]

end Sides

end Layout

namespace Session

variable {K : Type} [Scalar K] {h : Handle} {l : Layout K}

/--
A split parts a layout between the entities that the root reaches and all others.  Constraints stay
where all their entities are, with their marks, or go where all their entities go, unless the solver
there refuses them; those across the cut are in force on neither side.  Pins and intrinsic sizes go
with their entities.
-/
theorem split_partitions
    (events : List (Event K))
    (hl : ((empty : Session K).run events).layout? h = some l)
    (root : Entity) (tree : ChildRelation) :
    Layout.Partition l (tree.Reaches root) (l.refusedBySplit root tree) (l.split root tree).1
      (l.split root tree).2 := by
  obtain ⟨names, hrun⟩ := registered_run events
  have hregistered : Layout.Registered names l := hrun.layouts h l hl
  exact hregistered.split_partition root tree

/-- Two entities, each below the other. -/
def loop : ChildRelation where
  children e := if e = ⟨2⟩ then [⟨3⟩] else if e = ⟨3⟩ then [⟨2⟩] else []
  finite := by
    refine ⟨[⟨2⟩, ⟨3⟩], fun e he => ?_⟩
    by_cases h2 : e = ⟨2⟩
    · simp [h2]
    · by_cases h3 : e = ⟨3⟩
      · simp [h3]
      · simp [h2, h3] at he

/--
Three entities with a pin and a size.  Of the constraints between them one relates the entities of
the loop, two cross from either side to the entity outside, and one is about that entity alone.
-/
def loopEvents : List (Event Rat) :=
  [.start {}, .ask ⟨0⟩ (.manage ⟨1⟩), .ask ⟨0⟩ (.manage ⟨2⟩), .ask ⟨0⟩ (.manage ⟨3⟩),
    .ask ⟨0⟩ (.pin ⟨⟨2⟩, .left⟩ 6), .ask ⟨0⟩ (.changeIntrinsic ⟨3⟩ .horizontal (.size (some 10))),
    .make ⟨2⟩ [⟨⟨⟨3⟩, .left⟩, .equal, some ⟨⟨2⟩, .left⟩⟩] { offset := some 10 },
    .make ⟨1⟩ [⟨⟨⟨1⟩, .left⟩, .equal, some ⟨⟨2⟩, .left⟩⟩] {},
    .make ⟨3⟩ [⟨⟨⟨3⟩, .top⟩, .equal, some ⟨⟨1⟩, .top⟩⟩] {},
    .make ⟨1⟩ [⟨⟨⟨1⟩, .right⟩, .equal, none⟩] {},
    .add ⟨0⟩ 0 {}, .add ⟨0⟩ 1 {}, .add ⟨0⟩ 2 {}, .add ⟨0⟩ 3 {}]

theorem split_partitions_loop :
    ∃ l, ((empty : Session Rat).run loopEvents).layout? ⟨0⟩ = some l ∧
      l.constraints.keys = [⟨1⟩, ⟨2⟩, ⟨3⟩, ⟨4⟩, ⟨5⟩, ⟨6⟩, ⟨7⟩] ∧
      (l.split ⟨2⟩ loop).1.constraints.keys = [⟨7⟩] ∧
      (l.split ⟨2⟩ loop).2.constraints.keys = [⟨1⟩, ⟨4⟩, ⟨2⟩, ⟨3⟩] ∧
      Layout.Partition l (loop.Reaches ⟨2⟩) (l.refusedBySplit ⟨2⟩ loop) (l.split ⟨2⟩ loop).1
        (l.split ⟨2⟩ loop).2 := by
  have hleaving : loop.subtree ⟨2⟩ = [⟨2⟩, ⟨3⟩] := by
    simp [ChildRelation.subtree, ChildRelation.visit, loop]
  have hstate : (((empty : Session Rat).run loopEvents).layout? ⟨0⟩).map (fun l =>
      (l.constraints.keys, (l.split ⟨2⟩ loop).1.constraints.keys,
        (l.split ⟨2⟩ loop).2.constraints.keys)) =
      some ([⟨1⟩, ⟨2⟩, ⟨3⟩, ⟨4⟩, ⟨5⟩, ⟨6⟩, ⟨7⟩], [⟨7⟩], [⟨1⟩, ⟨4⟩, ⟨2⟩, ⟨3⟩]) := by
    simp only [Layout.split, hleaving]
    decide +kernel
  obtain ⟨l, hl, hparts⟩ := Option.map_eq_some_iff.1 hstate
  simp only [Prod.mk.injEq] at hparts
  obtain ⟨hbefore, hrest, hpart⟩ := hparts
  exact ⟨l, hl, hbefore, hrest, hpart, split_partitions loopEvents hl ⟨2⟩ loop⟩

end Session
end LinearLayout
