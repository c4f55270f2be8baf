import LinearLayout.Proofs.Layout.Partition

/-!
# Releasing an entity

A release takes out what the entity owns, then its pins, and at last every constraint of another
owner that mentions it.  Between these passes the tables disagree; after them every table holds
what it held before, less what has to do with the entity.
-/

namespace LinearLayout
namespace Layout

variable {K : Type} [Scalar K] {l m : Layout K} {names : Names} {id : ConstraintId} {e : Entity}
  {r : ManagedEntity K}

/-- The second layout is the first one without an entity and without all that mentions it. -/
structure Released (l : Layout K) (e : Entity) (m : Layout K) : Prop where
  /-- The constraints that do not mention the entity are left, with their equations. -/
  constraints : m.constraints = l.constraints.filter fun _ a => e ∉ a.constraint.entities
  /-- The same holds of the constraints of every owner. -/
  constraintsOf : ∀ f, m.constraintsOf f = (l.constraintsOf f).filter fun c => e ∉ c.entities
  /-- What is left has kept its system mark, and what is gone with this has lost it. -/
  system : ∀ id, id ∈ m.system.toList ↔
    id ∈ l.system.toList ∧ (l.isActive id = true → m.isActive id = true)
  entities : m.entities = l.entities.filter fun f _ => f ≠ e
  pins : m.pins = l.pins.filter fun v _ => v.entity ≠ e
  settings : m.settings = l.settings

section Passes

/-- Where all constraints speak of managed entities, those that become foreign mention the one. -/
theorem Closed.unmanaged?_stripped
    (h : Closed l)
    {a : ActiveConstraint K}
    (ha : l.constraints.get? id = some a) :
    (l.stripped e r).unmanaged? a.constraint = none ↔ e ∉ a.constraint.entities := by
  rw [unmanaged?_eq_none_iff]
  constructor
  · exact fun hmanaged he => (isManaged_stripped.1 (hmanaged e he)).1 rfl
  · intro he f hf
    exact isManaged_stripped.2 ⟨fun hfe => he (hfe ▸ hf), h id a ha f hf⟩

theorem Registered.constraints_release
    (h : Registered names l)
    (hr : l.entities.get? e = some r) :
    (l.release e).constraints = l.constraints.filter fun _ a => e ∉ a.constraint.entities := by
  rw [release_of_get? hr, constraints_dropForeign, constraints_stripped h.lists,
    OrderedMap.filter_filter]
  refine OrderedMap.filter_congr fun id a ha => ?_
  rw [Bool.eq_iff_iff, Bool.and_eq_true, Option.isNone_iff_eq_none, decide_eq_true_iff,
    decide_eq_true_iff, h.closed.unmanaged?_stripped ha]
  -- the owner is one of the entities, so what the first pass took the last one would have taken
  exact and_iff_left_of_imp fun he howner => he (howner ▸ a.constraint.owner_mem_entities)

theorem Registered.onlyRemoved_release
    (h : Registered names l)
    (hr : l.entities.get? e = some r) :
    OnlyRemoved l (l.release e) := by
  have howned : OnlyRemoved (l.struck e r) ((l.struck e r).removeAll (l.ownedBy e)) :=
    onlyRemoved_removeAll fun i hi => by
      obtain ⟨a, ha, _⟩ := mem_activeOf_iff.1 (h.lists e ▸ hi)
      exact isActive_iff.2 ⟨a, ha⟩
  have hstripped : OnlyRemoved (l.struck e r) (l.stripped e r) := howned.congr rfl rfl
  rw [release_of_get? hr]
  have hall := hstripped.trans (onlyRemoved_dropForeign _)
  exact ⟨hall.active, hall.system⟩

end Passes

section Released

/-- Every table of a layout after a release, read off the tables before it. -/
theorem Registered.released
    (h : Registered names l)
    (hr : l.entities.get? e = some r) :
    Released l e (l.release e) := by
  have hconstraints := h.constraints_release hr
  have hafter := h.release e
  refine ⟨hconstraints, fun f => ?_, (h.onlyRemoved_release hr).system, ?_, ?_, ?_⟩
  · rw [(hafter.lists f).constraintsOf_eq, (h.lists f).constraintsOf_eq,
      active_eq_filter (p := fun c => e ∉ c.entities) hconstraints, List.filter_filter,
      List.filter_filter]
    exact List.filter_congr fun c _ => Bool.and_comm _ _
  · rw [release_of_get? hr, dropForeign, entities_removeAll, entities_stripped,
      OrderedMap.erase_eq_filter]
  · rw [release_of_get? hr, dropForeign, pins_removeAll, pins_stripped]
  · rw [release_of_get? hr, dropForeign, settings_removeAll]
    exact settings_removeAll

end Released

section Manage

/-- An entity that is managed from now on has the sizes of the settings. -/
theorem get?_entities_manage
    (he : l.isManaged e = false) :
    ∃ keys, (l.manage e).entities.get? e =
      some ⟨keys, .ofSettings l.settings.intrinsic, .both []⟩ := by
  rw [manage, he, if_neg Bool.false_ne_true, entities_adopt, OrderedMap.get?_insert, if_pos rfl]
  exact ⟨_, rfl⟩

theorem Registered.ownedBy_manage
    (h : Registered names l)
    (he : l.isManaged e = false) :
    (l.manage e).ownedBy e = [] := by
  rw [Layout.manage, he, if_neg Bool.false_ne_true, ownedBy_adopt, h.ownedBy_eq_nil he]

end Manage

end Layout

namespace Session

variable {K : Type} [Scalar K] {h : Handle} {l : Layout K} {e : Entity}

/--
A release drops the constraints that mention the entity, whoever owns them, and nothing else: the
other constraints, entities and pins are what they were, in their order and with their marks.  And
whatever happens afterwards, the entity starts anew when it is managed again: it has the sizes of
the settings, and it owns nothing.
-/
theorem release_spares_others
    (events : List (Event K))
    (hl : ((empty : Session K).run events).layout? h = some l)
    (he : l.isManaged e = true) :
    Layout.Released l e (l.release e) ∧
      ∀ more l', ((empty : Session K).run (events ++ .ask h (.release e) :: more)).layout? h =
        some l' → l'.isManaged e = false →
        (∃ keys, (l'.manage e).entities.get? e =
          some ⟨keys, .ofSettings l'.settings.intrinsic, .both []⟩) ∧
        (l'.manage e).ownedBy e = [] := by
  obtain ⟨names, hrun⟩ := registered_run events
  obtain ⟨r, hr⟩ := Layout.isManaged_iff.1 he
  have hregistered : Layout.Registered names l := hrun.layouts h l hl
  refine ⟨hregistered.released hr, fun more l' hl' hreleased => ?_⟩
  obtain ⟨later, hlater⟩ := registered_run (events ++ .ask h (.release e) :: more)
  have hmanaged : Layout.Registered later l' := hlater.layouts h l' hl'
  exact ⟨Layout.get?_entities_manage hreleased, hmanaged.ownedBy_manage hreleased⟩

/--
Two entities with pins on both, a size for each, a constraint of the first alone, one of the second
alone, and one of the second that reaches for the first.
-/
def reachingEvents : List (Event Rat) :=
  [.start {}, .ask ⟨0⟩ (.manage ⟨1⟩), .ask ⟨0⟩ (.manage ⟨2⟩),
    .ask ⟨0⟩ (.pin ⟨⟨1⟩, .left⟩ 5), .ask ⟨0⟩ (.pin ⟨⟨2⟩, .top⟩ 3),
    .ask ⟨0⟩ (.changeIntrinsic ⟨1⟩ .horizontal (.size (some 10))),
    .ask ⟨0⟩ (.changeIntrinsic ⟨2⟩ .vertical (.size (some 20))),
    .make ⟨1⟩ [⟨⟨⟨1⟩, .top⟩, .equal, none⟩] {},
    .make ⟨2⟩ [⟨⟨⟨2⟩, .left⟩, .equal, some ⟨⟨1⟩, .right⟩⟩] {},
    .make ⟨2⟩ [⟨⟨⟨2⟩, .width⟩, .atLeast, none⟩] {},
    .add ⟨0⟩ 0 {}, .add ⟨0⟩ 1 {}, .add ⟨0⟩ 2 {}]

theorem release_spares_others_reaching :
    ∃ l l', ((empty : Session Rat).run reachingEvents).layout? ⟨0⟩ = some l ∧
      l.isManaged ⟨1⟩ = true ∧ l.constraints.keys = [⟨1⟩, ⟨2⟩, ⟨3⟩, ⟨4⟩, ⟨5⟩, ⟨6⟩, ⟨7⟩, ⟨8⟩, ⟨9⟩] ∧
      (l.release ⟨1⟩).constraints.keys = [⟨2⟩, ⟨5⟩, ⟨6⟩, ⟨9⟩] ∧
      Layout.Released l ⟨1⟩ (l.release ⟨1⟩) ∧
      ((empty : Session Rat).run (reachingEvents ++ [.ask ⟨0⟩ (.release ⟨1⟩)])).layout? ⟨0⟩ =
        some l' ∧
      l'.isManaged ⟨1⟩ = false ∧
      (∃ keys, (l'.manage ⟨1⟩).entities.get? ⟨1⟩ =
        some ⟨keys, .ofSettings l'.settings.intrinsic, .both []⟩) ∧
      (l'.manage ⟨1⟩).ownedBy ⟨1⟩ = [] := by
  have hstate : (((empty : Session Rat).run reachingEvents).layout? ⟨0⟩).map
      (fun l => (l.isManaged ⟨1⟩, l.constraints.keys, (l.release ⟨1⟩).constraints.keys)) =
      some (true, [⟨1⟩, ⟨2⟩, ⟨3⟩, ⟨4⟩, ⟨5⟩, ⟨6⟩, ⟨7⟩, ⟨8⟩, ⟨9⟩], [⟨2⟩, ⟨5⟩, ⟨6⟩, ⟨9⟩]) := by
    decide +kernel
  have hreleased : (((empty : Session Rat).run
      (reachingEvents ++ [.ask ⟨0⟩ (.release ⟨1⟩)])).layout? ⟨0⟩).map
        (fun l' => l'.isManaged ⟨1⟩) = some false := by
    decide +kernel
  obtain ⟨l, hl, hparts⟩ := Option.map_eq_some_iff.1 hstate
  obtain ⟨l', hl', hgone⟩ := Option.map_eq_some_iff.1 hreleased
  simp only [Prod.mk.injEq] at hparts
  obtain ⟨hmanaged, hbefore, hafter⟩ := hparts
  obtain ⟨hspared, hlater⟩ := release_spares_others reachingEvents hl hmanaged
  exact ⟨l, l', hl, hmanaged, hbefore, hafter, hspared, hl', hgone, hlater [] l' hl' hgone⟩

end Session
end LinearLayout
