import LinearLayout.Proofs.Layout.Solvers
import LinearLayout.Proofs.Solver.Ledger

/-!
# The equations of a layout are accounted for

A layout keeps on record under which keys the equations of its boxes and of its constraints are
installed.  As lists, up to order, the keys that are installed are those on record and those that
were lost.  Everything that a layout does by itself keeps this balance, and loses nothing; only a
join or an edit that installs a constraint which is active already overwrites what was on record for
it.
-/

namespace LinearLayout
namespace Solver

variable {K : Type} [Scalar K] {s : Solver K} {rest keys : List EquationKey}

theorem keys_removeAll
    (h : s.equations.keys.Perm (keys ++ rest)) :
    (s.removeAll keys).equations.keys.Perm rest := by
  induction keys generalizing s with
  | nil =>
      exact h
  | cons key keys ih =>
      refine ih (s := (s.remove key).solver) ?_
      rw [equations_remove, OrderedMap.keys_erase]
      exact (h.erase key).trans (by rw [List.cons_append, List.erase_cons_head])

/-- An accepted equation is entered under a key that was not installed. -/
theorem WellFormed.keys_add
    (h : s.WellFormed)
    (hkeys : s.equations.keys.Perm rest)
    (e : Equation K) :
    (∃ key, (s.add e).result = .ok key ∧
      (s.add e).solver.equations.keys.Perm (key :: rest)) ∨
      (∃ cause, (s.add e).result = .error cause ∧
        (s.add e).solver.equations.keys.Perm rest) := by
  rcases h.toNumbered.extends_or_enters e with ⟨hresult, hextends⟩ | ⟨hresult, henters⟩
  · exact Or.inr ⟨_, hresult, hextends.equations ▸ hkeys⟩
  · obtain ⟨markers, hequations⟩ := henters.equations
    have hnew : ⟨s.nextKey⟩ ∉ s.equations.keys := OrderedMap.get?_eq_none_iff.1 h.get?_nextKey
    refine Or.inl ⟨_, hresult, ?_⟩
    rw [hequations, OrderedMap.keys_insert_of_not_mem _ hnew]
    exact (List.perm_append_singleton _ _).trans (hkeys.cons _)

/-- Adding all equations succeeds with their keys, or puts the keys back as they were. -/
theorem WellFormed.keys_addAll
    (h : s.WellFormed)
    (hkeys : s.equations.keys.Perm (keys ++ rest))
    (es : List (Equation K)) :
    (∃ all, (s.addAll keys es).1 = .ok all ∧
      (s.addAll keys es).2.equations.keys.Perm (all ++ rest)) ∨
      (∃ cause, (s.addAll keys es).1 = .error cause ∧
        (s.addAll keys es).2.equations.keys.Perm rest) := by
  induction es generalizing s keys with
  | nil =>
      exact Or.inl ⟨keys, rfl, hkeys⟩
  | cons e es ih =>
      rw [addAll]
      rcases h.keys_add hkeys e with ⟨key, hresult, hperm⟩ | ⟨cause, hresult, hperm⟩
      · rw [hresult]
        refine ih (h.add e) ?_
        rw [List.append_assoc]
        exact hperm.trans List.perm_middle.symm
      · rw [hresult]
        exact Or.inr ⟨cause, rfl, keys_removeAll hperm⟩

theorem keys_addIfAccepted
    {acc : List EquationKey × Solver K}
    (h : acc.2.WellFormed)
    (hkeys : acc.2.equations.keys.Perm (acc.1 ++ rest))
    (e : Equation K) :
    (addIfAccepted acc e).2.WellFormed ∧
      (addIfAccepted acc e).2.equations.keys.Perm ((addIfAccepted acc e).1 ++ rest) := by
  unfold addIfAccepted
  rcases h.keys_add hkeys e with ⟨key, hresult, hperm⟩ | ⟨cause, hresult, hperm⟩
  · rw [hresult]
    refine ⟨h.add e, ?_⟩
    rw [List.append_assoc]
    exact hperm.trans List.perm_middle.symm
  · rw [hresult]
    exact ⟨h.add e, hperm⟩

theorem WellFormed.keys_addAccepted
    (h : s.WellFormed)
    (hkeys : s.equations.keys.Perm rest)
    (es : List (Equation K)) :
    (s.addAccepted es).2.WellFormed ∧
      (s.addAccepted es).2.equations.keys.Perm ((s.addAccepted es).1 ++ rest) := by
  rw [addAccepted_eq]
  exact List.foldlRecOn es addIfAccepted (b := ([], s))
    (motive := fun acc => acc.2.WellFormed ∧ acc.2.equations.keys.Perm (acc.1 ++ rest))
    ⟨h, hkeys⟩ fun acc hacc e _ => keys_addIfAccepted hacc.1 hacc.2 e

end Solver

namespace Layout

variable {K : Type} [Scalar K] {l other : Layout K} {names : Names} {id : ConstraintId}
  {c : Constraint K} {e : Entity} {lost : List EquationKey}

/-- The keys on record: those of the boxes, then those of the active constraints. -/
def recordedKeys (l : Layout K) : List EquationKey :=
  l.entities.values.flatMap ManagedEntity.boxKeys ++
    l.constraints.values.flatMap ActiveConstraint.keys

/-- The keys on record for one constraint. -/
def keysOf (l : Layout K) (id : ConstraintId) : List EquationKey :=
  ((l.constraints.get? id).map ActiveConstraint.keys).getD []

/-- Installed are the equations on record and those that were lost. -/
structure Balances (l : Layout K) (lost : List EquationKey) : Prop where
  wellFormed : l.solver.WellFormed
  keys : l.solver.equations.keys.Perm (l.recordedKeys ++ lost)

theorem balances_new
    (settings : Settings K) :
    Balances (new settings) [] :=
  ⟨Solver.wellFormed_new settings.solver, List.Perm.refl _⟩

section Writers

variable {m : Layout K}

/-- The balance is about the solver and two tables only. -/
theorem Balances.congr
    (h : Balances l lost)
    (hsolver : m.solver = l.solver)
    (hconstraints : m.constraints = l.constraints)
    (hboxes : m.entities.values.map ManagedEntity.boxKeys =
      l.entities.values.map ManagedEntity.boxKeys) :
    Balances m lost := by
  have hrecorded : m.recordedKeys = l.recordedKeys := by
    rw [recordedKeys, recordedKeys, hconstraints, List.flatMap_def, hboxes, ← List.flatMap_def]
  refine ⟨hsolver ▸ h.wellFormed, ?_⟩
  rw [hsolver, hrecorded]
  exact h.keys

theorem recordedKeys_without
    (l : Layout K) (id : ConstraintId) :
    l.recordedKeys.Perm (l.keysOf id ++ (l.without id).recordedKeys) := by
  have hkeys : (l.constraints.get? id).toList.flatMap ActiveConstraint.keys = l.keysOf id := by
    unfold keysOf
    cases l.constraints.get? id <;> simp
  have hvalues := (OrderedMap.values_erase_perm l.constraints id).symm.flatMap_right
    ActiveConstraint.keys
  rw [List.flatMap_append, hkeys] at hvalues
  rw [recordedKeys, recordedKeys, entities_without, constraints_without]
  exact (hvalues.append_left _).trans (List.perm_append_comm_assoc _ _ _)

theorem solver_without
    (l : Layout K) (id : ConstraintId) :
    (l.without id).solver = l.solver.removeAll (l.keysOf id) := by
  cases h : l.constraints.get? id <;> simp [Layout.without, uninstall, keysOf, h, Solver.removeAll]

/-- A constraint that goes takes its equations with it. -/
theorem Balances.without
    (h : Balances l lost)
    (id : ConstraintId) :
    Balances (l.without id) lost := by
  refine ⟨solver_without l id ▸ Solver.lasting_wellFormed.removeAll h.wellFormed _, ?_⟩
  rw [solver_without]
  refine Solver.keys_removeAll (h.keys.trans ?_)
  rw [← List.append_assoc]
  exact (recordedKeys_without l id).append_right lost

theorem Balances.remove
    (h : Balances l lost)
    (id : ConstraintId) :
    Balances (l.remove id).2 lost := by
  rw [remove_snd]
  have hunmarked : Balances (l.unmarkSystem id) lost := h.congr rfl rfl rfl
  exact hunmarked.without id

theorem Balances.removeAll
    (h : Balances l lost)
    (ids : List ConstraintId) :
    Balances (l.removeAll ids) lost :=
  removeAll_induction (P := (Balances · lost)) (fun _ id hu => hu.remove id) h ids

/-- A refusal puts all equations back that were added. -/
theorem Balances.refused
    (h : Balances l lost)
    {es : List (Equation K)} {s : Solver K}
    (hs : s = l.solver ∨ ∃ reason, l.solver.addAll [] es = (.error reason, s)) :
    Balances { l with solver := s } lost := by
  rcases hs with rfl | ⟨reason, hadd⟩
  · exact h
  · have hstart : l.solver.equations.keys.Perm ([] ++ (l.recordedKeys ++ lost)) := h.keys
    have hwell := Solver.lasting_wellFormed.addAll h.wellFormed [] es
    rcases h.wellFormed.keys_addAll hstart es with ⟨all, hok, _⟩ | ⟨cause, _, hkeys⟩
    · rw [hadd] at hok
      cases hok
    · rw [hadd] at hwell hkeys
      exact ⟨hwell, hkeys⟩

theorem recordedKeys_enforced
    (l : Layout K) (c : Constraint K) (keys : List EquationKey) (s : Solver K) :
    (l.keysOf c.id ++ (l.enforced c keys s).recordedKeys).Perm (keys ++ l.recordedKeys) := by
  have hkeys : (l.constraints.get? c.id).toList.flatMap ActiveConstraint.keys = l.keysOf c.id := by
    unfold keysOf
    cases l.constraints.get? c.id <;> simp
  have hvalues := (OrderedMap.values_insert_perm l.constraints c.id ⟨c, keys⟩).flatMap_right
    ActiveConstraint.keys
  rw [List.flatMap_append, hkeys, List.flatMap_cons] at hvalues
  rw [recordedKeys, recordedKeys]
  exact (List.perm_append_comm_assoc _ _ _).trans
    ((hvalues.append_left _).trans (List.perm_append_comm_assoc _ _ _))

/-- A constraint that comes into force loses what was on record under its name. -/
theorem Balances.enforced
    (h : Balances l lost)
    {keys : List EquationKey} {s : Solver K}
    (hadd : l.solver.addAll [] c.equations = (.ok keys, s)) :
    Balances (l.enforced c keys s) (l.keysOf c.id ++ lost) := by
  have hstart : l.solver.equations.keys.Perm ([] ++ (l.recordedKeys ++ lost)) := h.keys
  have hwell := Solver.lasting_wellFormed.addAll h.wellFormed [] c.equations
  rcases h.wellFormed.keys_addAll hstart c.equations with ⟨all, hok, hkeys⟩ | ⟨cause, herror, _⟩
  · rw [hadd] at hwell hkeys hok
    cases hok
    refine ⟨hwell, hkeys.trans ?_⟩
    rw [← List.append_assoc]
    refine ((recordedKeys_enforced l c keys s).symm.append_right lost).trans ?_
    rw [List.append_assoc]
    exact List.perm_append_comm_assoc _ _ _
  · rw [hadd] at herror
    cases herror

theorem keysOf_eq_nil
    (h : l.isActive id = false) :
    l.keysOf id = [] := by
  cases ha : l.constraints.get? id with
  | none => rw [keysOf, ha]; rfl
  | some a => rw [isActive_iff.2 ⟨a, ha⟩] at h; cases h

/-- An installation can lose what was on record for an active constraint of the same name. -/
theorem Balances.overwrite
    (h : Balances l lost)
    (c : Constraint K) :
    ∃ leaked, Balances (l.install c).2 (leaked ++ lost) ∧
      (l.isActive c.id = false → leaked = []) := by
  rcases install_cases l c with ⟨cause, s, heq, hs⟩ | ⟨keys, s, heq, _, hadd⟩
  · rw [heq]
    exact ⟨[], h.refused hs, fun _ => rfl⟩
  · rw [heq]
    exact ⟨l.keysOf c.id, h.enforced hadd, keysOf_eq_nil⟩

theorem Balances.install
    (h : Balances l lost)
    (hid : l.isActive c.id = false) :
    Balances (l.install c).2 lost := by
  obtain ⟨leaked, hinstalled, hnone⟩ := h.overwrite c
  rwa [hnone hid] at hinstalled

theorem Balances.adopt
    (h : Balances l lost)
    (hnew : l.isManaged e = false)
    (size : IntrinsicSize K) (sizes : PerAxis (List ConstraintId)) :
    Balances (l.adopt e size sizes) lost := by
  have hfree : l.entities.get? e = none := by
    cases hr : l.entities.get? e with
    | none => rfl
    | some r => rw [isManaged_iff.2 ⟨r, hr⟩] at hnew; cases hnew
  obtain ⟨hwell, hkeys⟩ :=
    h.wellFormed.keys_addAccepted h.keys (Axis.all.flatMap (boxEquations e))
  have hrecorded : (l.adopt e size sizes).recordedKeys =
      l.entities.values.flatMap ManagedEntity.boxKeys ++
        ((l.solver.addAccepted (Axis.all.flatMap (boxEquations e))).1 ++
          l.constraints.values.flatMap ActiveConstraint.keys) := by
    rw [recordedKeys, entities_adopt, OrderedMap.values_insert_of_get?_eq_none _ hfree,
      List.flatMap_append, List.flatMap_singleton, List.append_assoc]
    rfl
  refine ⟨hwell, hkeys.trans ?_⟩
  rw [hrecorded, ← List.append_assoc]
  exact (List.perm_append_comm_assoc _ _ _).append_right lost

theorem Balances.struck
    (h : Balances l lost)
    {r : ManagedEntity K}
    (hr : l.entities.get? e = some r) :
    Balances (l.struck e r) lost := by
  refine ⟨Solver.lasting_wellFormed.removeAll h.wellFormed _, ?_⟩
  refine Solver.keys_removeAll (h.keys.trans ?_)
  have hvalues := (OrderedMap.values_erase_perm l.entities e).symm.flatMap_right
    ManagedEntity.boxKeys
  rw [hr, List.flatMap_append, Option.toList_some, List.flatMap_singleton] at hvalues
  rw [← List.append_assoc, recordedKeys, recordedKeys, ← List.append_assoc]
  exact (hvalues.append_right _).append_right lost

end Writers

section Requests

theorem Balances.dropForeign
    (h : Balances l lost) :
    Balances l.dropForeign lost :=
  h.removeAll _

theorem Balances.manage
    (h : Balances l lost)
    (e : Entity) :
    Balances (l.manage e) lost := by
  unfold Layout.manage
  split
  · exact h
  · next hnew => exact h.adopt (Bool.eq_false_iff.2 hnew) _ _

theorem Balances.release
    (h : Balances l lost)
    (e : Entity) :
    Balances (l.release e) lost := by
  cases hr : l.entities.get? e with
  | none => rwa [release_of_get?_eq_none hr]
  | some r =>
      rw [release_of_get? hr]
      have hstripped : Balances (l.stripped e r) lost :=
        ((h.struck hr).removeAll (l.ownedBy e)).congr rfl rfl rfl
      exact hstripped.dropForeign

theorem Balances.add
    (h : Balances l lost)
    (c : Constraint K) :
    Balances (l.add c).2 lost := by
  unfold Layout.add
  split
  · exact h
  · next hid => exact h.install (Bool.eq_false_iff.2 hid)

/--
The constraint that is edited is out of force when the edited one is installed, so nothing is lost
unless that one has the name of a third.
-/
theorem Balances.update
    (h : Balances l lost)
    (id : ConstraintId) (edit : Constraint K → Constraint K) :
    ∃ leaked, Balances (l.update id edit).2 (leaked ++ lost) ∧
      ((∀ c, l.constraint? id = some c → (edit c).id = id ∨ l.isActive (edit c).id = false) →
        leaked = []) := by
  unfold Layout.update
  rw [uninstall_eq]
  cases hc : l.constraint? id with
  | none => exact ⟨[], h, fun _ => rfl⟩
  | some c =>
      rw [Option.map_some]
      obtain ⟨leaked, hinstalled, hnone⟩ := (h.without id).overwrite (edit c)
      refine ⟨leaked, ?_, fun hfree => hnone (not_isActive_without (hfree c rfl))⟩
      dsimp only
      split
      · next m heq => rwa [heq] at hinstalled
      · next cause m heq =>
        rw [heq] at hinstalled
        exact hinstalled.congr rfl rfl rfl

theorem Balances.revalue
    {edit : Constraint K → Constraint K}
    (h : Balances l lost)
    (hnamed : Named names l)
    (hedit : Constraint.Revalues edit)
    (id : ConstraintId) :
    Balances (l.update id edit).2 lost := by
  obtain ⟨leaked, hupdated, hnone⟩ := h.update id edit
  rwa [hnone fun c hc => Or.inl (hnamed.id_of_revalues hedit hc)] at hupdated

theorem Balances.pin
    (h : Balances l lost)
    (hnamed : Named names l)
    {supply : IdSupply}
    (hbelow : names.Below supply.next)
    (v : Variable) (x : K) :
    Balances (l.pin supply v x).2.1 lost := by
  unfold Layout.pin
  split
  · cases hpin : l.pin? v with
    | some id =>
        have hupdated := h.revalue hnamed (Constraint.revalues_withOffset x) id
        show Balances (l.movePin v id x).2 lost
        unfold movePin
        split
        · next m heq => rwa [heq] at hupdated
        · next cause m heq =>
          rw [heq] at hupdated
          exact hupdated.congr rfl rfl rfl
    | none =>
        show Balances (l.newPin v ⟨supply.next⟩ x).2 lost
        have hfree : l.isActive ⟨supply.next⟩ = false := by
          cases hactive : l.isActive ⟨supply.next⟩ with
          | false => rfl
          | true =>
              obtain ⟨a, ha⟩ := isActive_iff.1 hactive
              exact absurd (hbelow _ _ (hnamed _ a ha).2) (Nat.lt_irrefl _)
        have hinstalled := h.install (c := .toValue ⟨supply.next⟩ v .equal x) hfree
        unfold newPin
        split
        · next m heq =>
          rw [heq] at hinstalled
          exact hinstalled.congr rfl rfl rfl
        · next cause m heq => rwa [heq] at hinstalled
  · exact h

theorem Balances.unpin
    (h : Balances l lost)
    (v : Variable) :
    Balances (l.unpin v) lost := by
  unfold Layout.unpin
  cases hv : l.pins.get? v with
  | none => exact h
  | some id =>
      have herased : Balances { l with pins := l.pins.erase v } lost := h.congr rfl rfl rfl
      exact herased.remove id

theorem isActive_enforced_of_ne
    {keys : List EquationKey} {s : Solver K}
    (hid : id ≠ c.id) :
    (l.enforced c keys s).isActive id = l.isActive id := by
  rw [isActive, isActive, OrderedMap.contains, OrderedMap.contains, get?_constraints_enforced,
    if_neg hid]

/-- Constraints under different names, none of them active yet. -/
theorem Balances.installSystem
    {cs : List (Constraint K)}
    (h : Balances l lost)
    (hdistinct : (cs.map Constraint.id).Nodup)
    (hfresh : ∀ c ∈ cs, l.isActive c.id = false) :
    Balances (l.installSystem cs).2.2 lost := by
  induction cs generalizing l with
  | nil =>
      exact h
  | cons c cs ih =>
      rw [List.map_cons, List.nodup_cons] at hdistinct
      have hrest : ∀ d ∈ cs, l.isActive d.id = false := fun d hd =>
        hfresh d (List.mem_cons_of_mem c hd)
      rcases install_cases l c with ⟨cause, s, heq, hs⟩ | ⟨keys, s, heq, _, hadd⟩
      · rw [installSystem_of_error heq]
        exact ih (h.refused hs) hdistinct.2 hrest
      · rw [installSystem_of_ok heq]
        have henforced := h.enforced hadd
        rw [keysOf_eq_nil (hfresh c List.mem_cons_self)] at henforced
        refine ih (henforced.congr rfl rfl rfl) hdistinct.2 fun d hd => ?_
        have hne : d.id ≠ c.id := fun hid =>
          hdistinct.1 (hid ▸ List.mem_map_of_mem hd)
        have hsame : (l.enforced c keys s).isActive d.id = l.isActive d.id :=
          isActive_enforced_of_ne hne
        exact hsame.trans (hrest d hd)

theorem Balances.storeIntrinsic
    (h : Balances l lost)
    (e : Entity) (axis : Axis) (a : AxisIntrinsic K) :
    Balances (l.storeIntrinsic e axis a) lost :=
  h.congr rfl rfl <| by
    refine OrderedMap.map_values_modify (fun _ => ?_) l.entities e
    rfl

theorem Balances.storeSizeConstraints
    (h : Balances l lost)
    (e : Entity) (axis : Axis) (ids : List ConstraintId) :
    Balances (l.storeSizeConstraints e axis ids) lost :=
  h.congr rfl rfl <| by
    refine OrderedMap.map_values_modify (fun _ => ?_) l.entities e
    rfl

theorem Balances.changeIntrinsic
    (h : Balances l lost)
    (hregistered : Registered names l)
    {supply : IdSupply}
    (hbelow : names.Below supply.next)
    (e : Entity) (axis : Axis) (change : IntrinsicChange K) :
    Balances (l.changeIntrinsic supply e axis change).2.1 lost := by
  cases hr : l.entities.get? e with
  | none =>
      rw [changeIntrinsic_of_get?_eq_none hr]
      exact h
  | some r =>
      rw [changeIntrinsic_of_get? hr]
      generalize (r.intrinsic.get axis).change change = after
      split
      · exact h.storeIntrinsic e axis after
      · have hnames : ∀ f ∈ after.demands e axis, ∀ id, (f id).id = id := fun f hf =>
          AxisIntrinsic.id_of_mem_demands hf
        obtain ⟨later, hissues, _⟩ := Names.exists_issues hbelow hnames
        have hcleared : Balances (l.cleared e axis r after) lost :=
          (((h.storeIntrinsic e axis after).storeSizeConstraints e axis []).removeAll
            (r.sizeConstraints.get axis)).congr rfl rfl rfl
        have hnamed := (hregistered.cleared hr axis after).named
        have hinstalled : Balances ((l.cleared e axis r after).installSystem
            (after.constraints supply e axis).1).2.2 lost := by
          refine hcleared.installSystem hissues.distinct fun c hc => ?_
          cases hactive : (l.cleared e axis r after).isActive c.id with
          | false => rfl
          | true =>
              obtain ⟨a, ha⟩ := isActive_iff.1 hactive
              exact nomatch (hissues.fresh c hc).symm.trans (hnamed _ a ha).2
        exact hinstalled.storeSizeConstraints e axis _

/-- No request loses an equation. -/
theorem Balances.serve
    (h : Balances l lost)
    (hregistered : Registered names l)
    {supply : IdSupply}
    (hbelow : names.Below supply.next)
    (request : Request K) :
    Balances (l.serve supply request).1 lost := by
  cases request with
  | manage e => exact h.manage e
  | release e => exact h.release e
  | remove id => exact h.remove id
  | update id edit => exact h.revalue hregistered.named (Constraint.revalues_edit edit) id
  | pin v x => exact h.pin hregistered.named hbelow v x
  | unpin v => exact h.unpin v
  | changeIntrinsic e axis change => exact h.changeIntrinsic hregistered hbelow e axis change
  | removeExternal e =>
      show Balances (l.removeExternal e).2 lost
      rw [removeExternal_snd]
      exact h.removeAll _
  | needsSize e axis =>
      show Balances (l.needsSize e axis).2 lost
      unfold needsSize
      split
      · exact h.congr rfl rfl rfl
      · exact h

end Requests

section Split

variable {es : List Entity} {ms : List (Moving K)}

theorem Balances.transferAll
    (h : Balances l lost)
    (howned : ∀ e ∈ es, l.ownedBy e = [])
    (settings : Settings K) :
    Balances (es.foldl transfer (l, new settings)).1 lost ∧
      Balances (es.foldl transfer (l, new settings)).2 [] := by
  induction es using List.reverseRecOn with
  | nil =>
      exact ⟨h, balances_new settings⟩
  | append_singleton es e ih =>
      have hbefore : ∀ f ∈ es, l.ownedBy f = [] := fun f hf =>
        howned f (List.mem_append_left _ hf)
      obtain ⟨hrest, hpart⟩ := ih hbefore
      have hpair := transferred_foldl settings hbefore
      rw [List.foldl_append, List.foldl_cons, List.foldl_nil]
      generalize es.foldl transfer (l, new settings) = pair at hrest hpart hpair
      cases hr : pair.1.entities.get? e with
      | none =>
          rw [transfer_of_get?_eq_none hr]
          exact ⟨hrest, hpart⟩
      | some r =>
          have hnew : pair.2.isManaged e = false := by
            have hentities := hpair.entities e
            have hkept := hpair.part_entities e
            by_cases he : e ∈ es
            · rw [hr, if_pos he] at hentities
              cases hentities
            · rw [if_neg he, Option.map_eq_none_iff] at hkept
              rw [isManaged, OrderedMap.contains, hkept]
              rfl
          rw [transfer_of_get? hr]
          exact ⟨(hrest.struck hr).congr rfl rfl rfl, hpart.adopt hnew _ _⟩

/-- Constraints that arrive under different names, none of them active yet. -/
theorem Balances.receiveAll
    (h : Balances l lost)
    (hdistinct : (ms.map fun m => m.constraint.id).Nodup)
    (hfresh : ∀ m ∈ ms, l.isActive m.constraint.id = false) :
    Balances (ms.foldl receive l) lost := by
  induction ms generalizing l with
  | nil =>
      exact h
  | cons m ms ih =>
      rw [List.map_cons, List.nodup_cons] at hdistinct
      have hrest : ∀ d ∈ ms, l.isActive d.constraint.id = false := fun d hd =>
        hfresh d (List.mem_cons_of_mem m hd)
      rw [List.foldl_cons]
      rcases receive_cases l m with ⟨s, heq, hs⟩ | ⟨keys, s, _, hadd, heq⟩
      · rw [heq]
        exact ih (h.refused hs) hdistinct.2 hrest
      · have henforced := h.enforced hadd
        rw [keysOf_eq_nil (hfresh m List.mem_cons_self)] at henforced
        have hactive : ∀ d ∈ ms,
            (l.enforced m.constraint keys s).isActive d.constraint.id = false := by
          intro d hd
          have hne : d.constraint.id ≠ m.constraint.id := fun hid =>
            hdistinct.1 (hid ▸ List.mem_map_of_mem (f := fun m => m.constraint.id) hd)
          exact (isActive_enforced_of_ne hne).trans (hrest d hd)
        rw [heq]
        split
        · exact ih (henforced.congr rfl rfl rfl) hdistinct.2 hactive
        · exact ih henforced hdistinct.2 hactive

/-- A split loses no equation on either side. -/
theorem Balances.split
    (h : Balances l lost)
    (hregistered : Registered names l)
    (root : Entity) (tree : ChildRelation) :
    Balances (l.split root tree).1 lost ∧ Balances (l.split root tree).2 [] := by
  unfold Layout.split
  obtain ⟨ids, hnodup, htaken, hids⟩ := exists_taken hregistered.lists (tree.subtree root)
  have howned : ∀ e ∈ tree.subtree root, (l.removeAll ids).ownedBy e = [] := fun e he =>
    ownedBy_removeAll_eq_nil hregistered.lists hids he
  have hpair := transferred_foldl l.settings howned
  obtain ⟨hrest, hpart⟩ := (h.removeAll ids).transferAll howned l.settings
  simp only [htaken]
  refine ⟨Balances.dropForeign (hrest.congr rfl rfl rfl), ?_⟩
  have hreceived := hpart.receiveAll
    (hnodup.sublist (map_id_moved_sublist hregistered.named ids)) fun m _ => by
      rw [isActive, hpair.part_constraints]
      rfl
  exact hreceived.congr rfl rfl rfl

end Split

section Join

theorem Balances.joinEntities
    (h : Balances l lost)
    (other : Layout K) :
    Balances (l.joinEntities other).2 lost :=
  joinEntities_induction (P := (Balances · lost)) (fun _ _ _ _ hnew hm => hm.adopt hnew _ _) h other

theorem Balances.joinConstraint
    {superseded : List ConstraintId} {acc : List ConstraintId × Layout K}
    {entry : ConstraintId × ActiveConstraint K}
    (h : Balances acc.2 lost)
    (hid : entry.2.constraint.id = entry.1) :
    ∃ leaked, Balances (joinConstraint other superseded acc entry).2 (leaked ++ lost) ∧
      (∀ key ∈ leaked, key ∈ acc.2.keysOf entry.1) ∧
      ∀ i, i ≠ entry.1 → (joinConstraint other superseded acc entry).2.keysOf i =
        acc.2.keysOf i := by
  rcases joinConstraint_cases other superseded acc entry with
    ⟨_, heq⟩ | ⟨_, s, heq, hs⟩ | ⟨hnot, keys, s, _, hadd, heq⟩
  · rw [heq]
    exact ⟨[], h, nofun, fun _ _ => rfl⟩
  · rw [heq]
    exact ⟨[], h.refused hs, nofun, fun _ _ => rfl⟩
  · have henforced := h.enforced hadd
    rw [hid] at henforced
    have hkeys : ∀ i, i ≠ entry.1 →
        (acc.2.enforced entry.2.constraint keys s).keysOf i = acc.2.keysOf i := fun i hi => by
      rw [keysOf, keysOf, get?_constraints_enforced, if_neg (hid ▸ hi)]
    rw [heq]
    refine ⟨acc.2.keysOf entry.1, ?_, fun _ hkey => hkey, ?_⟩
    · dsimp only
      split
      · exact henforced.congr rfl rfl rfl
      · exact henforced
    · dsimp only
      split
      · exact hkeys
      · exact hkeys

/-- All that the constraints of another layout overwrite was on record for the same constraints. -/
theorem Balances.joinConstraints
    (h : Balances l lost)
    (hother : Named names other)
    (superseded : List ConstraintId) :
    ∃ leaked, Balances (l.joinConstraints other superseded).2 (leaked ++ lost) ∧
      ∀ key ∈ leaked, ∃ id, other.isActive id = true ∧ key ∈ l.keysOf id := by
  have hfold : ∀ entries : List (ConstraintId × ActiveConstraint K),
      (entries.map Prod.fst).Nodup →
      (∀ entry ∈ entries, other.constraints.get? entry.1 = some entry.2) →
      ∃ leaked, Balances (entries.foldl (Layout.joinConstraint other superseded) ([], l)).2
          (leaked ++ lost) ∧
        (∀ key ∈ leaked, ∃ id, other.isActive id = true ∧ key ∈ l.keysOf id) ∧
        ∀ i ∉ entries.map Prod.fst,
          (entries.foldl (Layout.joinConstraint other superseded) ([], l)).2.keysOf i =
            l.keysOf i := by
    intro entries hnodup hentries
    -- names that are still to come have the keys that they had at the beginning
    induction entries using List.reverseRecOn with
    | nil =>
        exact ⟨[], h, nofun, fun _ _ => rfl⟩
    | append_singleton entries entry ih =>
        rw [List.map_append, List.nodup_append] at hnodup
        have hnew : entry.1 ∉ entries.map Prod.fst := fun hmem =>
          hnodup.2.2 _ hmem _ (List.mem_map_of_mem List.mem_cons_self) rfl
        obtain ⟨leaked, hbalances, hleaked, hkeys⟩ :=
          ih hnodup.1 fun x hx => hentries x (List.mem_append_left _ hx)
        have hentry := hentries entry (List.mem_append_right _ List.mem_cons_self)
        have hnext : ∃ more, Balances (Layout.joinConstraint other superseded
            (entries.foldl (Layout.joinConstraint other superseded) ([], l)) entry).2
              (more ++ (leaked ++ lost)) ∧ _ ∧ _ :=
          hbalances.joinConstraint (hother entry.1 entry.2 hentry).1
        obtain ⟨more, hmore, hfrom, hrest⟩ := hnext
        rw [List.foldl_append, List.foldl_cons, List.foldl_nil]
        refine ⟨more ++ leaked, List.append_assoc more leaked lost ▸ hmore, fun key hkey => ?_,
          fun i hi => ?_⟩
        · rcases List.mem_append.1 hkey with hkey | hkey
          · exact ⟨entry.1, isActive_iff.2 ⟨_, hentry⟩, hkeys entry.1 hnew ▸ hfrom key hkey⟩
          · exact hleaked key hkey
        · rw [List.map_append, List.mem_append, not_or] at hi
          have hne : i ≠ entry.1 := fun hi' => hi.2 (hi' ▸ List.mem_cons_self)
          rw [hrest i hne, hkeys i hi.1]
  rw [joinConstraints_eq]
  obtain ⟨leaked, hbalances, hleaked, _⟩ := hfold _ other.constraints.nodup_keys
    fun entry hentry => OrderedMap.get?_eq_some_iff.2 hentry
  exact ⟨leaked, hbalances, hleaked⟩

theorem Balances.join
    (h : Balances l lost)
    (hother : Named names other) :
    ∃ leaked, Balances (l.join other).2 (leaked ++ lost) ∧
      ∀ key ∈ leaked, ∃ id, other.isActive id = true ∧ key ∈ l.keysOf id := by
  rw [join_eq]
  obtain ⟨leaked, hbalances, hleaked⟩ :=
    (h.joinEntities other).joinConstraints hother (l.superseded other)
  obtain ⟨pins, heq, _⟩ := joinPins_eq (l.newPins other).nodup_keys
    ((l.joinEntities other).2.joinConstraints other (l.superseded other)).2
  have hkeys : ∀ id, (l.joinEntities other).2.keysOf id = l.keysOf id := fun id => by
    rw [keysOf, (adopted_joinEntities l other).constraints, keysOf]
  refine ⟨leaked, ?_, fun key hkey => ?_⟩
  · show Balances (Layout.joinPins _ (l.newPins other).entries) (leaked ++ lost)
    rw [heq]
    exact hbalances.congr rfl rfl rfl
  · obtain ⟨id, hactive, hmem⟩ := hleaked key hkey
    exact ⟨id, hactive, hkeys id ▸ hmem⟩

/-- Layouts that have no constraint in common lose nothing when they are joined. -/
theorem Balances.join_apart
    (h : Balances l lost)
    (hother : Named names other)
    (hapart : Session.apart l other = true) :
    Balances (l.join other).2 lost := by
  obtain ⟨leaked, hbalances, hleaked⟩ := h.join hother
  cases leaked with
  | nil => exact hbalances
  | cons key leaked =>
      obtain ⟨id, hactive, hmem⟩ := hleaked key List.mem_cons_self
      cases hid : l.isActive id with
      | false =>
          rw [keysOf_eq_nil hid] at hmem
          cases hmem
      | true =>
          have hforeign := Session.isActive_eq_false_of_apart hapart hid
          rw [hactive] at hforeign
          cases hforeign

end Join

end Layout

namespace Session

variable {K : Type} [Scalar K] {s : Session K} {h : Handle} {l : Layout K} {names : Names}
  {strict : Prop}

/-- All layouts are in balance; under a condition, nothing was lost. -/
def Balanced (strict : Prop) (s : Session K) : Prop :=
  s.All fun l => ∃ lost, l.Balances lost ∧ (strict → lost = [])

theorem Balanced.step
    (hs : s.Balanced strict)
    (hregistered : Registered names s)
    (event : Event K) :
    (s.step event).Balanced (strict ∧ s.keepsApart event = true) := by
  -- all events but joins and replacements lose nothing, whatever the condition
  have hweaker : s.Balanced (strict ∧ s.keepsApart event = true) := fun h l hl => by
    obtain ⟨lost, hbalances, hstrict⟩ := hs h l hl
    exact ⟨lost, hbalances, fun hkeeps => hstrict hkeeps.1⟩
  have hnew : ∀ (goal : Prop) (settings : Settings K),
      ∃ lost, (Layout.new settings).Balances lost ∧ (goal → lost = []) :=
    fun _ settings => ⟨[], Layout.balances_new settings, fun _ => rfl⟩
  cases event with
  | make owner items edit => exact hweaker
  | copy h id => exact hweaker
  | start settings => exact hweaker.share (hnew _ settings)
  | ask h request =>
      refine hweaker.ask fun l hl => ?_
      obtain ⟨lost, hbalances, hstrict⟩ := hweaker h l hl
      exact ⟨lost, hbalances.serve (hregistered.layouts h l hl) hregistered.below request, hstrict⟩
  | add h index edit =>
      refine hweaker.add fun l hl c _ => ?_
      obtain ⟨lost, hbalances, hstrict⟩ := hweaker h l hl
      exact ⟨lost, hbalances.add _, hstrict⟩
  | replace h id index edit =>
      refine hweaker.replace fun l c hl hc => ?_
      obtain ⟨lost, hbalances, hstrict⟩ := hweaker h l hl
      obtain ⟨leaked, hupdated, hnone⟩ := hbalances.update id fun _ => c.edit edit
      refine ⟨leaked ++ lost, hupdated, fun hboth => ?_⟩
      rw [hstrict hboth, hnone fun _ _ => eq_or_not_active_of_keepsApart hboth.2 hl hc]
      rfl
  | split h root tree =>
      refine hweaker.split fun l hl => ?_
      obtain ⟨lost, hbalances, hstrict⟩ := hweaker h l hl
      obtain ⟨hrest, hpart⟩ := hbalances.split (hregistered.layouts h l hl) root tree
      exact ⟨⟨lost, hrest, hstrict⟩, [], hpart, fun _ => rfl⟩
  | join target source =>
      refine hweaker.join (hnew _) fun l other hne hl hother => ?_
      obtain ⟨lost, hbalances, hstrict⟩ := hs target l hl
      have hnamed := (hregistered.layouts source other hother).named
      have hkeeps : s.keepsApart (.join target source) = apart l other := by
        simp only [keepsApart, hl, hother, hne, decide_false, Bool.false_or]
      by_cases hapart : apart l other = true
      · exact ⟨lost, hbalances.join_apart hnamed hapart, fun hboth => hstrict hboth.1⟩
      · obtain ⟨leaked, hjoined, _⟩ := hbalances.join hnamed
        exact ⟨leaked ++ lost, hjoined, fun hboth => absurd (hkeeps ▸ hboth.2) hapart⟩

theorem balanced_run
    (events : List (Event K)) :
    ((empty : Session K).run events).Balanced ((empty : Session K).staysApart events = true) := by
  have hrun : ∀ (events : List (Event K)) (s : Session K) (names : Names) (strict : Prop),
      Registered names s → s.Balanced strict →
      (s.run events).Balanced (strict ∧ s.staysApart events = true) := by
    intro events
    induction events with
    | nil =>
        intro s names strict _ hs h l hl
        obtain ⟨lost, hbalances, hstrict⟩ := hs h l hl
        exact ⟨lost, hbalances, fun hboth => hstrict hboth.1⟩
    | cons event events ih =>
        intro s names strict hregistered hs h l hl
        obtain ⟨later, _, hnext⟩ := hregistered.step event
        obtain ⟨lost, hbalances, hstrict⟩ := ih _ later _ hnext (hs.step hregistered event) h l hl
        refine ⟨lost, hbalances, fun hboth => hstrict ?_⟩
        obtain ⟨hkeeps, hlater⟩ := Bool.and_eq_true_iff.1 hboth.2
        exact ⟨⟨hboth.1, hkeeps⟩, hlater⟩
  have hempty : (empty : Session K).Balanced True := nofun
  intro h l hl
  obtain ⟨lost, hbalances, hstrict⟩ := hrun events empty _ True (settled_empty _) hempty h l hl
  exact ⟨lost, hbalances, fun hapart => hstrict ⟨trivial, hapart⟩⟩

/--
In every layout of a session, the keys on record for boxes and for active constraints are pairwise
different and all of them are installed.  As long as no two layouts are joined that have an active
constraint in common, and no edit puts a constraint in the place of another while it is active
itself, nothing else is installed.
-/
theorem equations_accounted
    (events : List (Event K))
    (hl : ((empty : Session K).run events).layout? h = some l) :
    l.recordedKeys.Nodup ∧
      (∀ key ∈ l.recordedKeys, l.solver.contains key = true) ∧
      ((empty : Session K).staysApart events = true →
        ∀ key, l.solver.contains key = true → key ∈ l.recordedKeys) := by
  obtain ⟨lost, hbalances, hstrict⟩ := balanced_run events h l hl
  have hinstalled : ∀ key, l.solver.contains key = true ↔ key ∈ l.recordedKeys ++ lost := fun key =>
    OrderedMap.contains_eq_true.trans hbalances.keys.mem_iff
  have hdistinct : (l.recordedKeys ++ lost).Nodup :=
    hbalances.keys.nodup_iff.1 l.solver.equations.nodup_keys
  refine ⟨(List.nodup_append.1 hdistinct).1, fun key hkey => ?_, fun hapart key hkey => ?_⟩
  · exact (hinstalled key).2 (List.mem_append_left lost hkey)
  · rw [hinstalled, hstrict hapart, List.append_nil] at hkey
    exact hkey

/--
Two layouts with an entity and a constraint each, joined.  Then the first constraint gives way to
another one.
-/
def strangersEvents : List (Event Rat) :=
  [.start {}, .start {}, .ask ⟨0⟩ (.manage ⟨1⟩), .ask ⟨1⟩ (.manage ⟨2⟩),
    .make ⟨1⟩ [⟨⟨⟨1⟩, .left⟩, .equal, none⟩] {}, .make ⟨2⟩ [⟨⟨⟨2⟩, .left⟩, .equal, none⟩] {},
    .make ⟨1⟩ [⟨⟨⟨1⟩, .top⟩, .equal, none⟩] {}, .add ⟨0⟩ 0 {}, .add ⟨1⟩ 1 {}, .join ⟨0⟩ ⟨1⟩,
    .replace ⟨0⟩ ⟨1⟩ 2 {}]

theorem equations_accounted_strangers :
    ∃ l, ((empty : Session Rat).run strangersEvents).layout? ⟨0⟩ = some l ∧
      l.recordedKeys = [⟨0⟩, ⟨1⟩, ⟨2⟩, ⟨3⟩, ⟨5⟩, ⟨6⟩, ⟨7⟩, ⟨8⟩, ⟨9⟩, ⟨10⟩] ∧
      l.recordedKeys.Nodup ∧
      (∀ key ∈ l.recordedKeys, l.solver.contains key = true) ∧
      ∀ key, l.solver.contains key = true → key ∈ l.recordedKeys := by
  have hrecorded : (((empty : Session Rat).run strangersEvents).layout? ⟨0⟩).map
      Layout.recordedKeys = some [⟨0⟩, ⟨1⟩, ⟨2⟩, ⟨3⟩, ⟨5⟩, ⟨6⟩, ⟨7⟩, ⟨8⟩, ⟨9⟩, ⟨10⟩] := by
    decide +kernel
  have hapart : (empty : Session Rat).staysApart strangersEvents = true := by
    decide +kernel
  obtain ⟨l, hl, hkeys⟩ := Option.map_eq_some_iff.1 hrecorded
  obtain ⟨hdistinct, hinstalled, hnothing⟩ := equations_accounted strangersEvents hl
  exact ⟨l, hl, hkeys, hdistinct, hinstalled, hnothing hapart⟩

/--
One constraint is added to two layouts that share its entity; they are joined, and then the
constraint is removed.
-/
def overlappingEvents : List (Event Rat) :=
  [.start {}, .start {}, .ask ⟨0⟩ (.manage ⟨1⟩), .ask ⟨1⟩ (.manage ⟨1⟩),
    .make ⟨1⟩ [⟨⟨⟨1⟩, .left⟩, .equal, none⟩] { offset := some 5 }, .add ⟨0⟩ 0 {}, .add ⟨1⟩ 0 {},
    .join ⟨0⟩ ⟨1⟩, .ask ⟨0⟩ (.remove ⟨1⟩)]

/-- After the last constraint is removed, an equation that it had still holds the edge. -/
theorem leaked_overlappingEvents :
    ∃ l, ((empty : Session Rat).run overlappingEvents).layout? ⟨0⟩ = some l ∧
      l.constraints.keys = [] ∧ l.solver.contains ⟨4⟩ = true ∧ ⟨4⟩ ∉ l.recordedKeys ∧
      l.value ⟨⟨1⟩, .left⟩ = 5 := by
  have hstate : (((empty : Session Rat).run overlappingEvents).layout? ⟨0⟩).map (fun l =>
      (l.constraints.keys, l.solver.contains ⟨4⟩, l.recordedKeys, l.value ⟨⟨1⟩, .left⟩)) =
      some ([], true, [⟨0⟩, ⟨1⟩, ⟨2⟩, ⟨3⟩], 5) := by
    decide +kernel
  obtain ⟨l, hl, hparts⟩ := Option.map_eq_some_iff.1 hstate
  simp only [Prod.mk.injEq] at hparts
  obtain ⟨hconstraints, hinstalled, hrecorded, hvalue⟩ := hparts
  exact ⟨l, hl, hconstraints, hinstalled, by rw [hrecorded]; decide, hvalue⟩

end Session
end LinearLayout
