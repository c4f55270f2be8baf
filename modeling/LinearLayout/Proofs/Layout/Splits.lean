import Mathlib.Data.List.Basic
import Mathlib.Data.List.Induction
import LinearLayout.Proofs.Layout.Registry

/-!
# Splits keep the registry

A split takes the constraints of the leaving entities out, moves the entities, and installs the
constraints again on the other side.  Each of these passes is described by what it leaves in the
tables; then the tables of both sides agree.
-/

namespace LinearLayout

/-- What goes along with an entity that moves to another layout. -/
def ManagedEntity.kept {K : Type} (r : ManagedEntity K) :
    IntrinsicSize K × PerAxis (List ConstraintId) :=
  (r.intrinsic, r.sizeConstraints)

namespace Layout

variable {K : Type} [Scalar K] {l : Layout K} {names : Names} {id : ConstraintId}
  {c : Constraint K} {e : Entity} {stale due due' : ConstraintId → Prop}

section Take

/-- A constraint as it is taken out. -/
def moved (l : Layout K) (id : ConstraintId) : Option (Moving K) :=
  (l.constraint? id).map fun c => ⟨c, l.system.contains id⟩

theorem moved_removeAll
    {ids : List ConstraintId}
    (h : id ∉ ids) :
    (l.removeAll ids).moved id = l.moved id := by
  have hsystem : (l.removeAll ids).system.contains id = l.system.contains id := by
    rw [Bool.eq_iff_iff, OrderedSet.contains_eq_true, OrderedSet.contains_eq_true,
      mem_system_removeAll]
    exact and_iff_left h
  rw [moved, moved, constraint?, constraint?, get?_constraints_removeAll, if_neg h, hsystem]

/-- Constraints taken out in turn are listed as they were at the beginning. -/
theorem foldl_take
    {ids : List ConstraintId}
    (hnodup : ids.Nodup)
    (acc : List (Moving K) × Layout K) :
    ids.foldl (fun acc id => (acc.1 ++ (acc.2.moved id).toList, (acc.2.remove id).2)) acc =
      (acc.1 ++ ids.filterMap acc.2.moved, acc.2.removeAll ids) := by
  induction ids generalizing acc with
  | nil =>
      simp [removeAll]
  | cons id ids ih =>
      rw [List.nodup_cons] at hnodup
      have hrest : ids.filterMap (acc.2.remove id).2.moved = ids.filterMap acc.2.moved := by
        refine List.filterMap_congr fun i hi => ?_
        have hne : i ∉ [id] := fun hmem => hnodup.1 (List.mem_singleton.1 hmem ▸ hi)
        have hsame : (acc.2.removeAll [id]).moved i = acc.2.moved i := moved_removeAll hne
        exact hsame
      rw [List.foldl_cons, ih hnodup.2, removeAll_cons]
      simp only [hrest, List.append_assoc]
      cases hid : acc.2.moved id <;> simp [hid]

theorem takeOwned_eq
    (l : Layout K) (e : Entity) :
    l.takeOwned e = ((l.ownedBy e).filterMap l.moved, l.removeAll (l.ownedBy e)) := by
  have hnodup : (l.ownedBy e).Nodup := ((l.owned.get? e).getD ∅).nodup
  have hstep : (fun (acc : List (Moving K) × Layout K) id =>
      (acc.1 ++ ((acc.2.remove id).1.map fun c => ⟨c, acc.2.system.contains id⟩).toList,
        (acc.2.remove id).2)) =
      fun acc id => (acc.1 ++ (acc.2.moved id).toList, (acc.2.remove id).2) := by
    funext acc id
    rw [remove_fst]
    rfl
  exact (congrArg (fun f => (l.ownedBy e).foldl f ([], l)) hstep).trans
    ((foldl_take hnodup ([], l)).trans (by rw [List.nil_append]))

theorem removeAll_append
    (l : Layout K) (ids more : List ConstraintId) :
    l.removeAll (ids ++ more) = (l.removeAll ids).removeAll more :=
  List.foldl_append

theorem activeOf_removeAll
    {ids : List ConstraintId} :
    id ∈ (l.removeAll ids).activeOf e ↔ id ∈ l.activeOf e ∧ id ∉ ids := by
  rw [mem_activeOf_iff, mem_activeOf_iff, get?_constraints_removeAll]
  by_cases hid : id ∈ ids <;> simp [hid]

/-- Each constraint that a leaving entity owns is taken out once, and nothing else is. -/
theorem exists_taken
    (hlists : ∀ e, Lists l e)
    (es : List Entity) :
    ∃ ids : List ConstraintId, ids.Nodup ∧
      l.takeAllOwned es = (ids.filterMap l.moved, l.removeAll ids) ∧
      ∀ i, i ∈ ids ↔ ∃ e ∈ es, i ∈ l.activeOf e := by
  induction es using List.reverseRecOn with
  | nil =>
      exact ⟨[], List.nodup_nil, rfl, by simp⟩
  | append_singleton es e ih =>
      obtain ⟨ids, hnodup, htaken, hmem⟩ := ih
      have howned : ∀ i, i ∈ (l.removeAll ids).ownedBy e ↔ i ∈ l.activeOf e ∧ i ∉ ids := fun i => by
        rw [(hlists e).removeAll ids, activeOf_removeAll]
      -- the list of an owner is read when the constraints of the owners before it are gone
      refine ⟨ids ++ (l.removeAll ids).ownedBy e, ?_, ?_, fun i => ?_⟩
      · refine List.nodup_append.2 ⟨hnodup, (((l.removeAll ids).owned.get? e).getD ∅).nodup, ?_⟩
        exact fun i hi j hj hij => ((howned j).1 hj).2 (hij ▸ hi)
      · have hstep : l.takeAllOwned (es ++ [e]) =
            ((l.takeAllOwned es).1 ++ ((l.takeAllOwned es).2.takeOwned e).1,
              ((l.takeAllOwned es).2.takeOwned e).2) := List.foldl_append
        have hsame : ((l.removeAll ids).ownedBy e).filterMap (l.removeAll ids).moved =
            ((l.removeAll ids).ownedBy e).filterMap l.moved :=
          List.filterMap_congr fun i hi => moved_removeAll ((howned i).1 hi).2
        rw [hstep, htaken, takeOwned_eq, hsame, List.filterMap_append, removeAll_append]
      · rw [List.mem_append, hmem, howned]
        constructor
        · rintro (⟨f, hf, hi⟩ | ⟨hi, _⟩)
          · exact ⟨f, List.mem_append_left _ hf, hi⟩
          · exact ⟨e, List.mem_append_right _ List.mem_cons_self, hi⟩
        · rintro ⟨f, hf, hi⟩
          by_cases hold : ∃ e ∈ es, i ∈ l.activeOf e
          · exact Or.inl hold
          · rcases List.mem_append.1 hf with hf | hf
            · exact absurd ⟨f, hf, hi⟩ hold
            · rw [List.mem_singleton] at hf
              exact Or.inr ⟨hf ▸ hi, fun hids => hold ((hmem i).1 hids)⟩

end Take

section Transfer

/-- Entities have moved from the first layout to the second, and nothing else has changed. -/
structure Transferred (l : Layout K) (es : List Entity) (pair : Layout K × Layout K) : Prop where
  constraints : pair.1.constraints = l.constraints
  system : pair.1.system = l.system
  pins : pair.1.pins = l.pins
  owned : ∀ e, pair.1.ownedBy e = l.ownedBy e
  entities : ∀ e, pair.1.entities.get? e = if e ∈ es then none else l.entities.get? e
  part_constraints : pair.2.constraints = ∅
  part_system : pair.2.system = ∅
  part_pins : pair.2.pins = ∅
  part_owned : ∀ e, pair.2.ownedBy e = []
  part_entities : ∀ e, (pair.2.entities.get? e).map ManagedEntity.kept =
    if e ∈ es then (l.entities.get? e).map ManagedEntity.kept else none

variable {es : List Entity} {pair : Layout K × Layout K}

theorem transferred_nil
    (l : Layout K) (settings : Settings K) :
    Transferred l [] (l, new settings) :=
  ⟨rfl, rfl, rfl, fun _ => rfl, fun _ => rfl, rfl, rfl, rfl, fun _ => rfl, fun _ => rfl⟩

theorem transfer_of_get?_eq_none
    (h : pair.1.entities.get? e = none) :
    transfer pair e = pair := by
  rw [transfer, h]

theorem transfer_of_get?
    {r : ManagedEntity K}
    (h : pair.1.entities.get? e = some r) :
    transfer pair e =
      ({ pair.1.struck e r with necessity := pair.1.necessity.forget e },
        pair.2.adopt e r.intrinsic r.sizeConstraints) := by
  rw [transfer, h]
  rfl

theorem entities_transfer_fst
    (pair : Layout K × Layout K) (e f : Entity) :
    (transfer pair e).1.entities.get? f = if f = e then none else pair.1.entities.get? f := by
  cases hr : pair.1.entities.get? e with
  | none =>
      simp only [transfer, hr]
      split
      · next hf => rw [hf, hr]
      · rfl
  | some r =>
      simp only [transfer, hr]
      exact OrderedMap.get?_erase _ _ _

theorem kept_transfer_snd
    (pair : Layout K × Layout K) (e f : Entity) :
    ((transfer pair e).2.entities.get? f).map ManagedEntity.kept =
      if f = e then
        (((pair.1.entities.get? e) <|> (pair.2.entities.get? e)).map ManagedEntity.kept)
      else (pair.2.entities.get? f).map ManagedEntity.kept := by
  cases hr : pair.1.entities.get? e with
  | none =>
      simp only [transfer, hr]
      split
      · next hf => rw [hf]; rfl
      · rfl
  | some r =>
      simp only [transfer, hr, entities_adopt, OrderedMap.get?_insert]
      split <;> rfl

theorem Transferred.transfer
    (h : Transferred l es pair)
    (howned : l.ownedBy e = []) :
    Transferred l (es ++ [e]) (transfer pair e) := by
  have hmem : ∀ f, f ∈ es ++ [e] ↔ f ∈ es ∨ f = e := fun f => by simp
  have hentities : ∀ f, (Layout.transfer pair e).1.entities.get? f =
      if f ∈ es ++ [e] then none else l.entities.get? f := by
    intro f
    rw [entities_transfer_fst, h.entities]
    by_cases hfe : f = e <;> by_cases hf : f ∈ es <;> simp [hmem, hfe, hf]
  have hpart : ∀ f, ((Layout.transfer pair e).2.entities.get? f).map ManagedEntity.kept =
      if f ∈ es ++ [e] then (l.entities.get? f).map ManagedEntity.kept else none := by
    intro f
    rw [kept_transfer_snd]
    by_cases hfe : f = e
    · subst hfe
      have hpart := h.part_entities f
      rw [if_pos rfl, if_pos ((hmem f).2 (Or.inr rfl)), h.entities]
      by_cases hf : f ∈ es
      · rw [if_pos hf] at hpart ⊢
        exact hpart
      · rw [if_neg hf, Option.map_eq_none_iff] at hpart
        rw [if_neg hf, hpart]
        cases l.entities.get? f <;> rfl
    · rw [if_neg hfe, h.part_entities]
      simp [hmem, hfe]
  cases hr : pair.1.entities.get? e with
  | none =>
      rw [transfer_of_get?_eq_none hr] at hentities hpart ⊢
      exact { h with entities := hentities, part_entities := hpart }
  | some r =>
      rw [transfer_of_get? hr] at hentities hpart ⊢
      refine ⟨h.constraints, h.system, h.pins, fun f => ?_, hentities, h.part_constraints,
        h.part_system, h.part_pins, fun f => (ownedBy_adopt f).trans (h.part_owned f), hpart⟩
      refine (ownedBy_struck r f).trans ?_
      split
      · next hf => rw [hf, howned]
      · exact h.owned f

theorem transferred_foldl
    (settings : Settings K)
    (howned : ∀ e ∈ es, l.ownedBy e = []) :
    Transferred l es (es.foldl transfer (l, new settings)) := by
  induction es using List.reverseRecOn with
  | nil =>
      exact transferred_nil l settings
  | append_singleton es e ih =>
      rw [List.foldl_append]
      exact (ih fun f hf => howned f (List.mem_append_left _ hf)).transfer
        (howned e (List.mem_append_right _ List.mem_cons_self))

end Transfer

section Receive

variable {ms : List (Moving K)}

/-- A constraint that arrives is refused, or it comes into force with the mark that it had. -/
theorem receive_cases
    (l : Layout K) (m : Moving K) :
    (∃ s, l.receive m = { l with solver := s } ∧
      (s = l.solver ∨ ∃ reason, l.solver.addAll [] m.constraint.equations = (.error reason, s))) ∨
      (∃ keys s, l.unmanaged? m.constraint = none ∧
        l.solver.addAll [] m.constraint.equations = (.ok keys, s) ∧
        l.receive m =
          if m.isSystem then (l.enforced m.constraint keys s).markSystem m.constraint.id
          else l.enforced m.constraint keys s) := by
  unfold receive
  rcases install_cases l m.constraint with ⟨_, s, heq, hs⟩ | ⟨keys, s, heq, hmanaged, hadd⟩
  · rw [heq]
    exact Or.inl ⟨s, rfl, hs⟩
  · rw [heq]
    exact Or.inr ⟨keys, s, hmanaged, hadd, rfl⟩

@[simp] theorem pins_receive
    (l : Layout K) (m : Moving K) :
    (l.receive m).pins = l.pins := by
  rcases receive_cases l m with ⟨s, heq, _⟩ | ⟨keys, s, _, _, heq⟩
  · rw [heq]
  · rw [heq]
    split <;> rfl

@[simp] theorem entities_receive
    (l : Layout K) (m : Moving K) :
    (l.receive m).entities = l.entities := by
  rcases receive_cases l m with ⟨s, heq, _⟩ | ⟨keys, s, _, _, heq⟩
  · rw [heq]
  · rw [heq]
    split <;> rfl

theorem pins_receiveAll
    (l : Layout K) (ms : List (Moving K)) :
    (ms.foldl receive l).pins = l.pins := by
  induction ms generalizing l with
  | nil =>
      rfl
  | cons m ms ih =>
      exact (ih _).trans (pins_receive l m)

theorem entities_receiveAll
    (l : Layout K) (ms : List (Moving K)) :
    (ms.foldl receive l).entities = l.entities := by
  induction ms generalizing l with
  | nil =>
      rfl
  | cons m ms ih =>
      exact (ih _).trans (entities_receive l m)

theorem Filed.receive
    {m : Moving K}
    (h : Filed names stale due l)
    (hc : names m.constraint.id = some m.constraint.blueprint)
    (hsystem : m.isSystem = true → ¬ stale m.constraint.id →
      l.isManaged m.constraint.owner = true →
      Records names l m.constraint.id ∨ due m.constraint.id) :
    Filed names stale due (l.receive m) := by
  rcases receive_cases l m with ⟨s, heq, _⟩ | ⟨keys, s, hmanaged, _, heq⟩
  · rw [heq]
    exact h.withSolver s
  · rw [heq]
    have henforced : Filed names stale due (l.enforced m.constraint keys s) :=
      h.enforced hc hmanaged
    split
    · next hmark =>
      refine (henforced.markSystem isActive_enforced_self).settle ?_
      rintro i hfresh (hi | rfl)
      · exact Or.inr hi
      · exact hsystem hmark hfresh (isManaged_of_unmanaged?_eq_none hmanaged
          m.constraint.owner_mem_entities)
    · exact henforced

theorem Filed.receiveAll
    (h : Filed names stale due l)
    (hc : ∀ m ∈ ms, names m.constraint.id = some m.constraint.blueprint)
    (hsystem : ∀ m ∈ ms, m.isSystem = true → ¬ stale m.constraint.id →
      l.isManaged m.constraint.owner = true →
      Records names l m.constraint.id ∨ due m.constraint.id) :
    Filed names stale due (ms.foldl Layout.receive l) := by
  induction ms generalizing l with
  | nil =>
      exact h
  | cons m ms ih =>
      refine ih (h.receive (hc m List.mem_cons_self) (hsystem m List.mem_cons_self))
        (fun d hd => hc d (List.mem_cons_of_mem m hd)) fun d hd hmark hfresh hmanaged => ?_
      rw [isManaged, entities_receive] at hmanaged
      rw [records_congr (pins_receive l m) (entities_receive l m)]
      exact hsystem d (List.mem_cons_of_mem m hd) hmark hfresh hmanaged

end Receive

section Split

variable {leaving : List Entity} {ids : List ConstraintId} {pair : Layout K × Layout K}

/-- The entities of a layout that no leaving entity owns constraints of any more. -/
theorem ownedBy_removeAll_eq_nil
    (h : ∀ e, Lists l e)
    (hids : ∀ i, i ∈ ids ↔ ∃ e ∈ leaving, i ∈ l.activeOf e)
    (he : e ∈ leaving) :
    (l.removeAll ids).ownedBy e = [] := by
  rw [(h e).removeAll ids]
  refine List.eq_nil_iff_forall_not_mem.2 fun i hi => ?_
  obtain ⟨hi, hnot⟩ := activeOf_removeAll.1 hi
  exact hnot ((hids i).2 ⟨e, he, hi⟩)

theorem Settled.stays
    (h : Settled names stale l)
    (hids : ∀ i, i ∈ ids ↔ ∃ e ∈ leaving, i ∈ l.activeOf e)
    (hpair : Transferred (l.removeAll ids) leaving pair) :
    Settled names stale (Layout.dropForeign
      { pair.1 with pins := pair.1.pins.filter fun v _ => !leaving.contains v.entity }) := by
  refine filed_dropForeign ((h.named.removeAll ids).congr hpair.constraints)
    (fun e => ((h.lists e).removeAll ids).congr hpair.constraints (hpair.owned e)) ?_ ?_
  · intro v i hv
    rw [OrderedMap.get?_filter, Option.filter_eq_some_iff, hpair.pins, pins_removeAll] at hv
    obtain ⟨hv, hstays⟩ := hv
    obtain ⟨hmanaged, hname⟩ := h.pinned v i hv
    obtain ⟨r, hr⟩ := isManaged_iff.1 hmanaged
    refine ⟨isManaged_iff.2 ⟨r, ?_⟩, hname⟩
    rw [hpair.entities, if_neg (by simpa using hstays), entities_removeAll, hr]
  · intro i hi hfresh
    have hsystem : i ∈ (l.removeAll ids).system.toList := hpair.system ▸ hi
    obtain ⟨hi, hout⟩ := mem_system_removeAll.1 hsystem
    obtain ⟨hactive, hrecord⟩ := h.vouched i hi hfresh
    obtain ⟨a, ha⟩ := isActive_iff.1 hactive
    have howner : a.constraint.owner ∉ leaving := fun howner =>
      hout ((hids i).2 ⟨_, howner, mem_activeOf_iff.2 ⟨a, ha, rfl⟩⟩)
    refine ⟨isActive_iff.2 ⟨a, ?_⟩, Or.inl ?_⟩
    · show pair.1.constraints.get? i = some a
      rw [hpair.constraints, get?_constraints_removeAll, if_neg hout, ha]
    · obtain ⟨b, hb, hrecord⟩ := hrecord.resolve_right not_false
      have hblueprint : a.constraint.blueprint = b := h.named.eq_of_get? ha hb
      have hbowner : b.owner ∉ leaving := hblueprint ▸ howner
      refine ⟨b, hb, ?_⟩
      rcases hrecord with ⟨v, rfl, hv⟩ | hsize
      · refine Or.inl ⟨v, rfl, ?_⟩
        have hstays : v.entity ∉ leaving := hbowner
        rw [OrderedMap.get?_filter, hpair.pins, pins_removeAll, hv, Option.filter_some,
          if_pos (by simpa using hstays)]
      · have hsame : pair.1.entities.get? b.owner = l.entities.get? b.owner := by
          rw [hpair.entities, if_neg hbowner, entities_removeAll]
        exact Or.inr (sizeConstraintsOf_congr (m := pair.1) hsame ▸ hsize)

theorem exists_of_mem_moved
    (h : Named names l)
    {m : Moving K}
    (hm : m ∈ ids.filterMap l.moved) :
    ∃ a, l.constraints.get? m.constraint.id = some a ∧ a.constraint = m.constraint ∧
      m.isSystem = l.system.contains m.constraint.id ∧ m.constraint.id ∈ ids := by
  obtain ⟨i, hi, hmoved⟩ := List.mem_filterMap.1 hm
  cases ha : l.constraints.get? i with
  | none => simp [moved, constraint?, ha] at hmoved
  | some a =>
      simp only [moved, constraint?, ha, Option.map_some, Option.some.injEq] at hmoved
      subst hmoved
      obtain ⟨hid, _⟩ := h i a ha
      exact ⟨a, by rw [hid, ha], rfl, by rw [hid], hid ▸ hi⟩

theorem map_id_moved_sublist
    (h : Named names l)
    (ids : List ConstraintId) :
    ((ids.filterMap l.moved).map fun m => m.constraint.id).Sublist ids := by
  induction ids with
  | nil =>
      exact List.Sublist.refl _
  | cons id ids ih =>
      cases ha : l.constraints.get? id with
      | none =>
          have hmoved : l.moved id = none := by rw [moved, constraint?, ha]; rfl
          rw [List.filterMap_cons_none hmoved]
          exact ih.cons id
      | some a =>
          have hmoved : l.moved id = some ⟨a.constraint, l.system.contains id⟩ := by
            rw [moved, constraint?, ha]
            rfl
          rw [List.filterMap_cons_some hmoved, List.map_cons, (h id a ha).1]
          exact ih.cons_cons id

theorem sizeConstraintsOf_of_kept
    {m : Layout K}
    (h : (m.entities.get? e).map ManagedEntity.kept = (l.entities.get? e).map ManagedEntity.kept) :
    m.sizeConstraintsOf e = l.sizeConstraintsOf e := by
  have hkept : ∀ u : Layout K, u.sizeConstraintsOf e =
      (((u.entities.get? e).map ManagedEntity.kept).map fun k => k.2.toList.flatten).getD [] := by
    intro u
    rw [sizeConstraintsOf, Option.map_map]
    rfl
  rw [hkept, hkept, h]

theorem Transferred.mem_of_isManaged
    (hpair : Transferred (l.removeAll ids) leaving pair)
    (he : pair.2.isManaged e = true) :
    e ∈ leaving := by
  obtain ⟨r, hr⟩ := isManaged_iff.1 he
  have hpart := hpair.part_entities e
  rw [hr] at hpart
  by_cases hmem : e ∈ leaving
  · exact hmem
  · rw [if_neg hmem] at hpart
    cases hpart

theorem Transferred.kept_eq
    (hpair : Transferred (l.removeAll ids) leaving pair)
    (he : e ∈ leaving) :
    (pair.2.entities.get? e).map ManagedEntity.kept =
      (l.entities.get? e).map ManagedEntity.kept := by
  rw [hpair.part_entities, if_pos he, entities_removeAll]

/-- The new layout has no constraints and no pins yet, so its tables agree for any names. -/
theorem Transferred.filed_part
    {due : ConstraintId → Prop}
    (h : Transferred l leaving pair) :
    Filed names stale due pair.2 := by
  refine ⟨fun i a ha => ?_, fun i a ha => ?_, fun e => ?_, fun v i hv => ?_, fun i hi => ?_⟩
  · rw [h.part_constraints] at ha
    cases ha
  · rw [h.part_constraints] at ha
    cases ha
  · rw [Lists, h.part_owned, activeOf, h.part_constraints]
    rfl
  · rw [h.part_pins] at hv
    cases hv
  · rw [h.part_system] at hi
    cases hi

/-- On the other side a mark arrives with its constraint, and its record as a size or a pin. -/
theorem Settled.leaves
    (h : Settled names stale l)
    (hpair : Transferred (l.removeAll ids) leaving pair) :
    Settled names stale { (ids.filterMap l.moved).foldl Layout.receive pair.2 with
      pins := pair.1.pins.filter fun v _ => leaving.contains v.entity } := by
  have hpins : ∀ v i, (pair.1.pins.filter fun v _ => leaving.contains v.entity).get? v = some i ↔
      l.pins.get? v = some i ∧ v.entity ∈ leaving := by
    intro v i
    rw [OrderedMap.get?_filter, Option.filter_eq_some_iff, hpair.pins, pins_removeAll]
    simp
  -- the pins come last, so until then the marks of pin constraints are not on record yet
  have hempty : Filed names stale (fun i => ∃ v, names i = some (.pin v) ∧
      l.pins.get? v = some i ∧ v.entity ∈ leaving) pair.2 := hpair.filed_part
  have hnames : ∀ m ∈ ids.filterMap l.moved,
      names m.constraint.id = some m.constraint.blueprint := by
    intro m hm
    obtain ⟨a, ha, hconstraint, _⟩ := exists_of_mem_moved h.named hm
    exact hconstraint ▸ (h.named _ a ha).2
  have hreceived := hempty.receiveAll hnames fun m hm hmark hfresh hmanaged => by
    obtain ⟨a, ha, hconstraint, hsystem, _⟩ := exists_of_mem_moved h.named hm
    have hmem : m.constraint.id ∈ l.system.toList :=
      OrderedSet.contains_eq_true.1 (hsystem ▸ hmark)
    obtain ⟨b, hb, hrecord⟩ := (h.vouched _ hmem hfresh).2.resolve_right not_false
    have hblueprint : m.constraint.blueprint = b := hconstraint ▸ h.named.eq_of_get? ha hb
    have howner : b.owner ∈ leaving := hblueprint ▸ hpair.mem_of_isManaged hmanaged
    rcases hrecord with ⟨v, rfl, hv⟩ | hsize
    · exact Or.inr ⟨v, hb, hv, howner⟩
    · exact Or.inl ⟨b, hb, Or.inr (sizeConstraintsOf_of_kept (hpair.kept_eq howner) ▸ hsize)⟩
  refine ⟨hreceived.named, hreceived.closed, hreceived.lists, fun v i hv => ?_,
    fun i hi hfresh => ?_⟩
  · obtain ⟨hv, hleaves⟩ := (hpins v i).1 hv
    obtain ⟨hmanaged, hname⟩ := h.pinned v i hv
    obtain ⟨r, hr⟩ := isManaged_iff.1 hmanaged
    refine ⟨?_, hname⟩
    have hkept := hpair.kept_eq hleaves
    rw [hr, Option.map_some, Option.map_eq_some_iff] at hkept
    obtain ⟨s, hs, _⟩ := hkept
    refine isManaged_iff.2 ⟨s, ?_⟩
    rw [entities_receiveAll, hs]
  · obtain ⟨hactive, hrecord⟩ := hreceived.vouched i hi hfresh
    refine ⟨hactive, Or.inl ?_⟩
    rcases hrecord with ⟨b, hb, ⟨v, _, hv⟩ | hsize⟩ | ⟨v, hname, hv, hleaves⟩
    · rw [pins_receiveAll, hpair.part_pins] at hv
      cases hv
    · exact ⟨b, hb, Or.inr hsize⟩
    · exact ⟨_, hname, Or.inl ⟨v, rfl, (hpins v i).2 ⟨hv, hleaves⟩⟩⟩

theorem Settled.split
    (h : Settled names stale l)
    (root : Entity) (tree : ChildRelation) :
    Settled names stale (l.split root tree).1 ∧ Settled names stale (l.split root tree).2 := by
  unfold Layout.split
  obtain ⟨ids, _, htaken, hids⟩ := exists_taken h.lists (tree.subtree root)
  have hpair := transferred_foldl l.settings fun e he =>
    ownedBy_removeAll_eq_nil h.lists hids he
  simp only [htaken]
  exact ⟨h.stays hids hpair, h.leaves hpair⟩

end Split

end Layout
end LinearLayout
