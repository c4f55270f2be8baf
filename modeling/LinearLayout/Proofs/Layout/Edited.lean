import LinearLayout.Proofs.Layout.Partition
import LinearLayout.Proofs.Solver.Compile

/-!
# Editing a constraint

An edit takes a constraint out of force, changes it, and installs it again, and the last step may
fail with the old version gone.  Whichever way it ends, the tables differ in that one constraint
only.
-/

namespace LinearLayout

namespace Solver

variable {K : Type} [Scalar K] {s : Solver K} {e : Equation K} {cause : SolverError}

/-- There is one reason only for which an equation is refused. -/
theorem error_of_add
    (h : (s.add e).result = .error cause) :
    cause = .unsatisfiable := by
  obtain ⟨s', o, ps, _, hadd⟩ := Compiled.exists_enters s e
  rw [hadd] at h
  cases o with
  | none =>
      cases h
      rfl
  | some t => cases h

theorem error_of_addAll
    {keys : List EquationKey} {es : List (Equation K)}
    (h : (s.addAll keys es).1 = .error cause) :
    cause = .unsatisfiable := by
  induction es generalizing s keys with
  | nil =>
      cases h
  | cons e es ih =>
      rw [addAll] at h
      cases hresult : (s.add e).result with
      | ok key =>
          rw [hresult] at h
          exact ih h
      | error reason =>
          rw [hresult] at h
          cases h
          exact error_of_add hresult

end Solver

namespace Layout

variable {K : Type} [Scalar K] {l m : Layout K} {names : Names} {id : ConstraintId}
  {c : Constraint K} {edit : Edit K} {cause : LayoutError K}

/-- Two layouts agree in everything but one constraint. -/
structure AgreeBeside (id : ConstraintId) (l m : Layout K) : Prop where
  /-- The other constraints in force, in their order and with their equations. -/
  constraints : m.constraints.erase id = l.constraints.erase id
  /-- The same holds of the constraints of every owner. -/
  constraintsOf : ∀ f,
    (m.constraintsOf f).filter (fun c => c.id ≠ id) = (l.constraintsOf f).filter fun c => c.id ≠ id
  system : m.system.erase id = l.system.erase id
  entities : m.entities = l.entities
  pins : m.pins = l.pins
  settings : m.settings = l.settings

section Errors

theorem error_of_install
    (hmanaged : l.unmanaged? c = none)
    (h : (l.install c).1 = .error cause) :
    cause = .infeasible c .unsatisfiable := by
  rw [install, hmanaged] at h
  dsimp only at h
  rcases hadd : l.solver.addAll [] c.equations with ⟨reason | keys, s⟩
  · rw [hadd] at h
    cases h
    rw [Solver.error_of_addAll (congrArg Prod.fst hadd)]
  · rw [hadd] at h
    cases h

theorem Closed.error_of_update
    (h : Closed l)
    (hc : l.constraint? id = some c)
    (herror : (l.update id edit).1 = .error cause) :
    cause = .infeasible (c.edit edit) .unsatisfiable := by
  rw [update, uninstall_eq, hc, Option.map_some] at herror
  dsimp only at herror
  rcases hinstall : (l.without id).install (c.edit edit) with ⟨reason | _, u⟩
  · rw [hinstall] at herror
    cases herror
    exact error_of_install (h.unmanaged?_edit hc edit) (congrArg Prod.fst hinstall)
  · rw [hinstall] at herror
    cases herror

end Errors

section Frame

theorem Named.active_without
    (h : Named names l)
    (id : ConstraintId) :
    (l.without id).active = l.active.filter fun c => c.id ≠ id := by
  refine active_eq_filter ?_
  rw [constraints_without, OrderedMap.erase_eq_filter]
  exact OrderedMap.filter_congr fun i a ha => by rw [(h i a ha).1]

theorem Registered.filter_constraintsOf
    (h : Registered names l)
    (id : ConstraintId) (f : Entity) :
    (l.constraintsOf f).filter (fun c => c.id ≠ id) =
      (l.without id).active.filter fun c => c.owner = f := by
  rw [(h.lists f).constraintsOf_eq, h.named.active_without, List.filter_filter,
    List.filter_filter]
  exact List.filter_congr fun c _ => Bool.and_comm _ _

theorem Named.erase_constraints_update
    (h : Named names l)
    (id : ConstraintId) (edit : Edit K) :
    (l.update id edit).2.constraints.erase id = l.constraints.erase id := by
  have hgone : (l.constraints.erase id).get? id = none :=
    (OrderedMap.get?_erase _ _ _).trans (if_pos rfl)
  rcases update_cases l id edit with ⟨_, heq⟩ | ⟨c, hc, ⟨keys, s, heq, _⟩ | ⟨cause, s, heq⟩⟩
  · rw [heq]
  · have hid : c.id = id := (h.of_constraint? hc).1
    rw [heq]
    show ((l.without id).constraints.insert c.id ⟨c.edit edit, keys⟩).erase id = _
    rw [constraints_without, hid]
    exact OrderedMap.erase_insert_of_not_mem _ (OrderedMap.get?_eq_none_iff.1 hgone)
  · rw [heq]
    show (l.without id).constraints.erase id = _
    rw [constraints_without, OrderedMap.erase_of_get?_eq_none hgone]

theorem erase_system_update
    (l : Layout K) (id : ConstraintId) (edit : Constraint K → Constraint K) :
    (l.update id edit).2.system.erase id = l.system.erase id := by
  rcases update_cases l id edit with ⟨_, heq⟩ | ⟨c, _, ⟨keys, s, heq, _⟩ | ⟨cause, s, heq⟩⟩
  · rw [heq]
  · rw [heq, Layout.enforced, system_without]
  · rw [heq, unmarkSystem, system_without]
    exact OrderedSet.erase_of_not_mem fun hid => (OrderedSet.mem_toList_erase.1 hid).1 rfl

theorem settings_update
    (l : Layout K) (id : ConstraintId) (edit : Constraint K → Constraint K) :
    (l.update id edit).2.settings = l.settings := by
  rcases update_cases l id edit with ⟨_, heq⟩ | ⟨c, _, ⟨keys, s, heq, _⟩ | ⟨cause, s, heq⟩⟩
  · rw [heq]
  · rw [heq]
    exact settings_without
  · rw [heq]
    exact settings_without

/-- An edit is seen in the constraint that is edited and nowhere else. -/
theorem Registered.agreeBeside_update
    (h : Registered names l)
    (id : ConstraintId) (edit : Edit K) :
    AgreeBeside id l (l.update id edit).2 where
  constraints := h.named.erase_constraints_update id edit
  constraintsOf := fun f => by
    -- the lists follow the table on both sides, and the tables differ under one name only
    have hactive : ((l.update id edit).2.without id).active = (l.without id).active := by
      rw [active, constraints_without, h.named.erase_constraints_update, active,
        constraints_without]
    have hupdated : Registered names (l.update id edit).2 :=
      h.revalue (Constraint.revalues_edit edit) id
    rw [hupdated.filter_constraintsOf, h.filter_constraintsOf, hactive]
  system := erase_system_update l id edit
  entities := entities_update l id edit
  pins := pins_update l id edit
  settings := settings_update l id edit

end Frame

section Ends

/-- How the edit of a constraint in force ends. -/
inductive Edited (l : Layout K) (id : ConstraintId) (c : Constraint K) :
    Except (LayoutError K) Unit × Layout K → Prop where
  /-- The constraint is in force with its new values and the mark that it had. -/
  | accepted {m : Layout K}
      (constraint : m.constraint? id = some c)
      (mark : id ∈ m.system.toList ↔ id ∈ l.system.toList) :
      Edited l id c (.ok (), m)
  /-- The constraint is out of force and has no mark. -/
  | refused {m : Layout K}
      (inactive : m.isActive id = false)
      (unmarked : id ∉ m.system.toList) :
      Edited l id c (.error (.infeasible c .unsatisfiable), m)

theorem Registered.edited
    (h : Registered names l)
    (hc : l.constraint? id = some c)
    (edit : Edit K) :
    Edited l id (c.edit edit) (l.update id edit) := by
  have hid : c.id = id := (h.named.of_constraint? hc).1
  rcases update_cases l id edit with ⟨hnone, _⟩ | ⟨d, hd, hupdate⟩
  · exact nomatch hnone.symm.trans hc
  · cases hd.symm.trans hc
    rcases hupdate with ⟨keys, s, heq, _⟩ | ⟨cause, s, heq⟩
    · rw [heq]
      refine .accepted (constraint?_enforced keys s hid) ?_
      rw [Layout.enforced, system_without]
    · have hcause := h.closed.error_of_update hc (congrArg Prod.fst heq)
      rw [heq, hcause]
      exact .refused (isActive_without_self l id) fun hmem =>
        (OrderedSet.mem_toList_erase.1 hmem).1 rfl

end Ends

end Layout

namespace Session

variable {K : Type} [Scalar K] {h : Handle} {l : Layout K}

/--
An edit of a name that is not active is answered so and changes nothing.  The edit of an active
constraint leaves it in force with its new values, its name and its mark, or it is infeasible and
leaves it out of force without a mark.  Everything else is as before.
-/
theorem update_edits_one
    (events : List (Event K))
    (hl : ((empty : Session K).run events).layout? h = some l)
    (id : ConstraintId) (edit : Edit K) :
    ((∃ other, (l.update id edit).1 = .error (.unknownConstraint other)) ↔
        l.isActive id = false) ∧
      (l.isActive id = false → l.update id edit = (.error (.unknownConstraint id), l)) ∧
      (∀ c, l.constraint? id = some c →
        c.id = id ∧ Layout.Edited l id (c.edit edit) (l.update id edit)) ∧
      Layout.AgreeBeside id l (l.update id edit).2 := by
  obtain ⟨names, hrun⟩ := registered_run events
  have hregistered : Layout.Registered names l := hrun.layouts h l hl
  have hunknown : l.isActive id = false →
      l.update id edit = (.error (.unknownConstraint id), l) := by
    intro hinactive
    rcases Layout.update_cases l id edit with ⟨_, heq⟩ | ⟨c, hc, _⟩
    · exact heq
    · exact nomatch (Layout.constraint?_eq_none_iff.2 hinactive).symm.trans hc
  refine ⟨⟨?_, fun hinactive => ⟨id, congrArg Prod.fst (hunknown hinactive)⟩⟩, hunknown,
    fun c hc => ⟨(hregistered.named.of_constraint? hc).1, hregistered.edited hc edit⟩,
    hregistered.agreeBeside_update id edit⟩
  rintro ⟨other, herror⟩
  refine Layout.constraint?_eq_none_iff.1 (Option.eq_none_iff_forall_ne_some.2 fun c hc => ?_)
  cases hregistered.closed.error_of_update hc herror

/-- A pin at 5, and a constraint that holds the pinned edge at 3 or above. -/
def boundedEvents : List (Event Rat) :=
  [.start {}, .ask ⟨0⟩ (.manage ⟨1⟩), .ask ⟨0⟩ (.pin ⟨⟨1⟩, .left⟩ 5),
    .make ⟨1⟩ [⟨⟨⟨1⟩, .left⟩, .atLeast, none⟩] { offset := some 3 }, .add ⟨0⟩ 0 {}]

/-- The edit that gives a constraint a new offset. -/
def shift (x : Rat) : Edit Rat :=
  { offset := some x }

/-- The pin can be moved up and not down. -/
theorem update_edits_one_bounded :
    ∃ l c, ((empty : Session Rat).run boundedEvents).layout? ⟨0⟩ = some l ∧
      l.constraint? ⟨1⟩ = some c ∧ l.system.toList = [⟨1⟩] ∧
      (l.update ⟨1⟩ (shift 7)).1.isOk = true ∧
      Layout.Edited l ⟨1⟩ (c.edit (shift 7)) (l.update ⟨1⟩ (shift 7)) ∧
      Layout.AgreeBeside ⟨1⟩ l (l.update ⟨1⟩ (shift 7)).2 ∧
      (l.update ⟨1⟩ (shift 1)).1.isOk = false ∧
      Layout.Edited l ⟨1⟩ (c.edit (shift 1)) (l.update ⟨1⟩ (shift 1)) ∧
      Layout.AgreeBeside ⟨1⟩ l (l.update ⟨1⟩ (shift 1)).2 ∧
      l.isActive ⟨3⟩ = false ∧ l.update ⟨3⟩ (shift 7) = (.error (.unknownConstraint ⟨3⟩), l) := by
  have hstate : (((empty : Session Rat).run boundedEvents).layout? ⟨0⟩).map (fun l =>
      (l.isActive ⟨1⟩, l.isActive ⟨3⟩, l.system.toList,
        (l.update ⟨1⟩ (shift 7)).1.isOk, (l.update ⟨1⟩ (shift 1)).1.isOk)) =
      some (true, false, [⟨1⟩], true, false) := by
    decide +kernel
  obtain ⟨l, hl, hparts⟩ := Option.map_eq_some_iff.1 hstate
  simp only [Prod.mk.injEq] at hparts
  obtain ⟨hactive, hinactive, hsystem, hraised, hlowered⟩ := hparts
  rw [← Layout.isSome_constraint?] at hactive
  obtain ⟨c, hc⟩ := Option.isSome_iff_exists.1 hactive
  obtain ⟨_, _, hup, hbesideUp⟩ := update_edits_one boundedEvents hl ⟨1⟩ (shift 7)
  obtain ⟨_, _, hdown, hbesideDown⟩ := update_edits_one boundedEvents hl ⟨1⟩ (shift 1)
  exact ⟨l, c, hl, hc, hsystem, hraised, (hup c hc).2, hbesideUp, hlowered, (hdown c hc).2,
    hbesideDown, hinactive, (update_edits_one boundedEvents hl ⟨3⟩ (shift 7)).2.1 hinactive⟩

end Session
end LinearLayout
