import LinearLayout.Proofs.Layout.Union
import LinearLayout.Proofs.Necessity.Calls

/-!
# The analysis tracks the fixing constraints

The analysis of a layout is told of every constraint that comes into force or goes, and applies
what it is told later.  It then tracks the fixing constraints in force, as if they had been read off
the table.

A removal may still wait when its constraint comes back, fixing or not; the name ties both together,
since it stands for one list of items.
-/

namespace LinearLayout
namespace Layout

variable {K : Type} [Scalar K] {l other m : Layout K} {names later : Names} {id : ConstraintId}
  {c : Constraint K}

/-- The items of a fixing constraint in force. -/
def fixingItems (l : Layout K) : Tracking :=
  fun id => ((l.constraint? id).filter Constraint.isFixing).map Constraint.items

/-- The analysis tracks the fixing constraints in force, and stores them as their names have it. -/
structure Tracked (names : Names) (l : Layout K) : Prop where
  kept : l.necessity.Kept
  overlay : ∀ id, l.necessity.overlay id = l.fixingItems id
  stores : ∀ id items, l.necessity.Stores id items → ∃ b, names id = some b ∧ b.items = items

section Constraints

variable {keys : List EquationKey} {s : Solver K}

theorem tracked_new
    (names : Names) (settings : Settings K) :
    Tracked names (new settings) :=
  ⟨Necessity.kept_empty, fun _ => rfl, fun _ _ h => nomatch h⟩

theorem Tracked.mono
    (h : Tracked names l)
    (hnames : names.Extends later) :
    Tracked later l := by
  refine { h with stores := fun id items hid => ?_ }
  obtain ⟨b, hb, hitems⟩ := h.stores id items hid
  exact ⟨b, hnames id b hb, hitems⟩

/-- Only the table of constraints matters, and of the analysis all but the marks. -/
theorem Tracked.congr
    (h : Tracked names l)
    (hconstraints : m.constraints = l.constraints)
    (hnecessity : ∃ forced, m.necessity = { l.necessity with forced := forced }) :
    Tracked names m := by
  obtain ⟨forced, hnecessity⟩ := hnecessity
  have hitems : m.fixingItems = l.fixingItems := by
    funext id
    rw [fixingItems, fixingItems, constraint?, constraint?, hconstraints]
  refine ⟨?_, ?_, ?_⟩
  · rw [hnecessity]
    exact ⟨h.kept.additions, h.kept.removals, h.kept.fixed⟩
  · rw [hitems, hnecessity]
    exact h.overlay
  · rw [hnecessity]
    exact h.stores

theorem fixingItems_of_not_active
    (h : l.isActive id = false) :
    l.fixingItems id = none := by
  rw [fixingItems, constraint?_eq_none_iff.2 h]
  rfl

/-- A constraint that comes into force is tracked if it is fixing. -/
theorem Tracked.enforced
    (h : Tracked names l)
    (hnew : l.isActive c.id = false)
    (hc : names c.id = some c.blueprint) :
    Tracked names (l.enforced c keys s) := by
  have hsame : ∀ items, l.necessity.Stores c.id items → items = c.items := by
    intro items hid
    obtain ⟨b, hb, rfl⟩ := h.stores c.id items hid
    exact congrArg Blueprint.items (Option.some.inj (hb.symm.trans hc))
  refine ⟨h.kept.add c, fun id => ?_, fun id items hid => ?_⟩
  · refine (h.kept.overlay_add hsame id).trans ?_
    by_cases hid : id = c.id
    · subst hid
      rw [h.overlay, fixingItems_of_not_active hnew, fixingItems, constraint?_enforced keys s rfl]
      by_cases hfixing : c.isFixing = true <;> simp [Option.filter, hfixing]
    · rw [if_neg fun hboth => hid hboth.1, h.overlay, fixingItems, fixingItems,
        constraint?_enforced_of_ne keys s (Ne.symm hid)]
  · rcases Necessity.stores_add hid with hold | ⟨rfl, rfl⟩
    · exact h.stores id items hold
    · exact ⟨_, hc, rfl⟩

theorem Tracked.withSolver
    (h : Tracked names l)
    (s : Solver K) :
    Tracked names { l with solver := s } :=
  h.congr rfl ⟨_, rfl⟩

theorem Tracked.install
    (h : Tracked names l)
    (hnew : l.isActive c.id = false)
    (hc : names c.id = some c.blueprint) :
    Tracked names (l.install c).2 := by
  rcases install_cases l c with ⟨_, s, heq, _⟩ | ⟨_, s, heq, _⟩
  · rw [heq]
    exact h.withSolver s
  · rw [heq]
    exact h.enforced hnew hc

theorem Tracked.add
    (h : Tracked names l)
    (hc : names c.id = some c.blueprint) :
    Tracked names (l.add c).2 := by
  unfold Layout.add
  split
  · exact h
  · next hnew => exact h.install (Bool.eq_false_iff.2 hnew) hc

theorem necessity_without
    (l : Layout K) (id : ConstraintId) :
    (l.without id).necessity =
      if l.isActive id then l.necessity.remove id else l.necessity := by
  cases h : l.constraints.get? id <;>
    simp [Layout.without, uninstall, isActive, OrderedMap.contains, h]

/-- A constraint that goes is tracked no longer. -/
theorem Tracked.without
    (h : Tracked names l)
    (id : ConstraintId) :
    Tracked names (l.without id) := by
  by_cases hactive : l.isActive id = true
  · have hnecessity := necessity_without l id
    rw [if_pos hactive] at hnecessity
    refine ⟨hnecessity ▸ h.kept.remove id, fun i => ?_, fun i items hi => ?_⟩
    · rw [hnecessity, h.kept.overlay_remove, h.overlay, fixingItems, fixingItems, constraint?,
        constraint?, constraints_without, OrderedMap.get?_erase]
      split <;> rfl
    · rw [hnecessity] at hi
      exact h.stores i items (Necessity.stores_remove hi)
  · rw [without_of_get?_eq_none]
    · exact h
    · rw [Bool.not_eq_true, isActive, OrderedMap.contains, Option.isSome_eq_false_iff,
        Option.isNone_iff_eq_none] at hactive
      exact hactive

theorem Tracked.remove
    (h : Tracked names l)
    (id : ConstraintId) :
    Tracked names (l.remove id).2 := by
  rw [remove_snd]
  have hunmarked : Tracked names (l.unmarkSystem id) := h.congr rfl ⟨_, rfl⟩
  exact hunmarked.without id

theorem Tracked.removeAll
    (h : Tracked names l)
    (ids : List ConstraintId) :
    Tracked names (l.removeAll ids) :=
  removeAll_induction (P := Tracked names) (fun _ id hu => hu.remove id) h ids

theorem Tracked.dropForeign
    (h : Tracked names l) :
    Tracked names l.dropForeign :=
  h.removeAll _

/-- The edited constraint is tracked if it is fixing, unless a third of its name is in force. -/
theorem Tracked.update
    {edit : Constraint K → Constraint K}
    (h : Tracked names l)
    (hfree : ∀ c, l.constraint? id = some c → (edit c).id = id ∨ l.isActive (edit c).id = false)
    (hnames : ∀ c, l.constraint? id = some c → names (edit c).id = some (edit c).blueprint) :
    Tracked names (l.update id edit).2 := by
  rcases update_cases l id edit with ⟨_, heq⟩ | ⟨c, hc, ⟨keys, s, heq, _⟩ | ⟨cause, s, heq⟩⟩
  · rw [heq]
    exact h
  · rw [heq]
    exact (h.without id).enforced (not_isActive_without (hfree c hc)) (hnames c hc)
  · rw [heq]
    exact (h.without id).congr rfl ⟨_, rfl⟩

/-- A constraint with new values comes back under its name, fixing or not. -/
theorem Tracked.revalue
    {edit : Constraint K → Constraint K}
    (h : Tracked names l)
    (hnamed : Named names l)
    (hedit : Constraint.Revalues edit)
    (id : ConstraintId) :
    Tracked names (l.update id edit).2 :=
  h.update (fun _ hc => Or.inl (hnamed.id_of_revalues hedit hc))
    fun _ hc => hnamed.names_of_revalues hedit hc

theorem Tracked.adopt
    (h : Tracked names l)
    (e : Entity) (size : IntrinsicSize K) (sizes : PerAxis (List ConstraintId)) :
    Tracked names (l.adopt e size sizes) :=
  h.congr rfl ⟨_, rfl⟩

theorem Tracked.manage
    (h : Tracked names l)
    (e : Entity) :
    Tracked names (l.manage e) := by
  unfold Layout.manage
  split
  · exact h
  · exact h.adopt e _ _

theorem Tracked.release
    (h : Tracked names l)
    (e : Entity) :
    Tracked names (l.release e) := by
  cases hr : l.entities.get? e with
  | none =>
      rw [release_of_get?_eq_none hr]
      exact h
  | some r =>
      rw [release_of_get? hr]
      have hstruck : Tracked names (l.struck e r) := h.congr rfl ⟨_, rfl⟩
      have hstripped : Tracked names (l.stripped e r) :=
        (hstruck.removeAll (l.ownedBy e)).congr rfl ⟨_, rfl⟩
      exact hstripped.dropForeign

theorem Tracked.unpin
    (h : Tracked names l)
    (v : Variable) :
    Tracked names (l.unpin v) := by
  unfold Layout.unpin
  cases hv : l.pins.get? v with
  | none => exact h
  | some id =>
      have herased : Tracked names { l with pins := l.pins.erase v } := h.congr rfl ⟨_, rfl⟩
      exact herased.remove id

theorem Tracked.needsSize
    (h : Tracked names l)
    (e : Entity) (axis : Axis) :
    Tracked names (l.needsSize e axis).2 := by
  unfold Layout.needsSize
  split
  · obtain ⟨hkept, hoverlay, _⟩ := h.kept.refresh
    exact ⟨hkept, fun id => (congrFun hoverlay id).trans (h.overlay id),
      fun id items hid => h.stores id items (h.kept.stores_refresh hid)⟩
  · exact h

end Constraints

section Serve

variable {supply : IdSupply} {v : Variable} {r : ManagedEntity K} {cs : List (Constraint K)}

theorem Named.not_active
    (h : Named names l)
    (hfree : names id = none) :
    l.isActive id = false := by
  cases hactive : l.isActive id with
  | false => rfl
  | true =>
      obtain ⟨a, ha⟩ := isActive_iff.1 hactive
      exact nomatch hfree.symm.trans (h id a ha).2

theorem Tracked.movePin
    (h : Tracked names l)
    (hnamed : Named names l)
    (v : Variable) (id : ConstraintId) (x : K) :
    Tracked names (l.movePin v id x).2 := by
  have hupdated := h.revalue hnamed (Constraint.revalues_withOffset x) id
  unfold Layout.movePin
  split
  · next m heq => rwa [heq] at hupdated
  · next cause m heq =>
    rw [heq] at hupdated
    exact hupdated.congr rfl ⟨_, rfl⟩

/-- The new name stands for the pin, as it is in force under it afterwards. -/
theorem Tracked.newPin
    (h : Tracked names l)
    (hnew : l.isActive id = false)
    (x : K)
    (hafter : Named names (l.newPin v id x).2) :
    Tracked names (l.newPin v id x).2 := by
  unfold Layout.newPin at hafter ⊢
  rcases install_cases l (.toValue id v .equal x) with ⟨cause, s, heq, _⟩ | ⟨keys, s, heq, _⟩
  · rw [heq]
    exact h.withSolver s
  · rw [heq] at hafter ⊢
    have hforce : (l.enforced (.toValue id v .equal x) keys s).constraints.get? id =
        some ⟨.toValue id v .equal x, keys⟩ := (get?_constraints_enforced id).trans (if_pos rfl)
    have henforced : Tracked names (l.enforced (.toValue id v .equal x) keys s) :=
      h.enforced hnew (hafter id _ hforce).2
    exact henforced.congr rfl ⟨_, rfl⟩

theorem Tracked.pin
    (h : Tracked names l)
    (hnamed : Named names l)
    (hbelow : names.Below supply.next)
    (hgrows : names.Extends later)
    (v : Variable) (x : K)
    (hafter : Named later (l.pin supply v x).2.1) :
    Tracked later (l.pin supply v x).2.1 := by
  unfold Layout.pin at hafter ⊢
  split
  · next hmanaged =>
    rw [if_pos hmanaged] at hafter
    cases hpin : l.pin? v with
    | some id => exact (h.movePin hnamed v id x).mono hgrows
    | none =>
        rw [hpin] at hafter
        have hfree : names ⟨supply.next⟩ = none := hbelow.eq_none (Nat.le_refl _)
        exact (h.mono hgrows).newPin (hnamed.not_active hfree) x hafter
  · exact h.mono hgrows

/-- System constraints that come leave the other names alone. -/
theorem get?_constraints_installSystem
    (hid : id ∉ cs.map Constraint.id) :
    (l.installSystem cs).2.2.constraints.get? id = l.constraints.get? id := by
  induction cs generalizing l with
  | nil =>
      rfl
  | cons c cs ih =>
      rw [List.map_cons, List.mem_cons, not_or] at hid
      rcases install_cases l c with ⟨_, s, heq, _⟩ | ⟨keys, s, heq, _⟩
      · rw [installSystem_of_error heq]
        exact ih hid.2
      · rw [installSystem_of_ok heq]
        have hsame : (l.enforced c keys s).constraints.get? id = l.constraints.get? id :=
          (get?_constraints_enforced id).trans (if_neg hid.1)
        exact (ih hid.2).trans hsame

theorem Tracked.installSystem
    (h : Tracked names l)
    (hdistinct : (cs.map Constraint.id).Nodup)
    (hnew : ∀ c ∈ cs, l.isActive c.id = false)
    (hafter : Named names (l.installSystem cs).2.2) :
    Tracked names (l.installSystem cs).2.2 := by
  induction cs generalizing l with
  | nil =>
      exact h
  | cons c cs ih =>
      rw [List.map_cons, List.nodup_cons] at hdistinct
      have hrest : ∀ d ∈ cs, l.isActive d.id = false := fun d hd =>
        hnew d (List.mem_cons_of_mem c hd)
      rcases install_cases l c with ⟨cause, s, heq, _⟩ | ⟨keys, s, heq, _⟩
      · rw [installSystem_of_error heq] at hafter ⊢
        exact ih (h.withSolver s) hdistinct.2 hrest hafter
      · rw [installSystem_of_ok heq] at hafter ⊢
        -- what is installed is still in force when all of them have come
        have hcome : (l.enforced c keys s).constraints.get? c.id = some ⟨c, keys⟩ :=
          (get?_constraints_enforced c.id).trans (if_pos rfl)
        have hforce :
            (((l.enforced c keys s).markSystem c.id).installSystem cs).2.2.constraints.get? c.id =
              some ⟨c, keys⟩ :=
          (get?_constraints_installSystem hdistinct.1).trans hcome
        have henforced : Tracked names (l.enforced c keys s) :=
          h.enforced (hnew c List.mem_cons_self) (hafter c.id _ hforce).2
        refine ih (henforced.congr rfl ⟨_, rfl⟩) hdistinct.2 (fun d hd => ?_) hafter
        have hne : d.id ≠ c.id := fun hid => hdistinct.1 (hid ▸ List.mem_map_of_mem hd)
        have hsame : (l.enforced c keys s).isActive d.id = l.isActive d.id :=
          isActive_congr ((get?_constraints_enforced d.id).trans (if_neg hne))
        exact hsame.trans (hrest d hd)

theorem Tracked.cleared
    (h : Tracked names l)
    (e : Entity) (axis : Axis) (r : ManagedEntity K) (a : AxisIntrinsic K) :
    Tracked names (l.cleared e axis r a) := by
  have hemptied : Tracked names ((l.storeIntrinsic e axis a).storeSizeConstraints e axis []) :=
    h.congr rfl ⟨_, rfl⟩
  exact (hemptied.removeAll (r.sizeConstraints.get axis)).congr rfl ⟨_, rfl⟩

theorem Tracked.changeIntrinsic
    (h : Tracked names l)
    (hregistered : Registered names l)
    (hbelow : names.Below supply.next)
    (hgrows : names.Extends later)
    (e : Entity) (axis : Axis) (change : IntrinsicChange K)
    (hafter : Named later (l.changeIntrinsic supply e axis change).2.1) :
    Tracked later (l.changeIntrinsic supply e axis change).2.1 := by
  cases hr : l.entities.get? e with
  | none =>
      rw [changeIntrinsic_of_get?_eq_none hr]
      exact h.mono hgrows
  | some r =>
      rw [changeIntrinsic_of_get? hr] at hafter ⊢
      generalize (r.intrinsic.get axis).change change = after at hafter ⊢
      split
      · exact (h.mono hgrows).congr rfl ⟨_, rfl⟩
      · next hsame =>
        rw [if_neg hsame] at hafter
        have hnames : ∀ f ∈ after.demands e axis, ∀ id, (f id).id = id := fun f hf =>
          AxisIntrinsic.id_of_mem_demands hf
        obtain ⟨_, hissues, _⟩ := Names.exists_issues hbelow hnames
        have hnamed := (hregistered.cleared hr axis after).named
        have hinstalled : Tracked later ((l.cleared e axis r after).installSystem
            (after.constraints supply e axis).1).2.2 :=
          ((h.cleared e axis r after).mono hgrows).installSystem hissues.distinct
            (fun c hc => hnamed.not_active (hissues.fresh c hc)) hafter
        exact hinstalled.congr rfl ⟨_, rfl⟩

/-- The analysis keeps step through every request, for the names in use by then. -/
theorem Tracked.serve
    (h : Tracked names l)
    (hregistered : Registered names l)
    (hbelow : names.Below supply.next)
    (hgrows : names.Extends later)
    (request : Request K)
    (hafter : Named later (l.serve supply request).1) :
    Tracked later (l.serve supply request).1 := by
  cases request with
  | manage e => exact (h.manage e).mono hgrows
  | release e => exact (h.release e).mono hgrows
  | remove id => exact (h.remove id).mono hgrows
  | update id edit =>
      exact (h.revalue hregistered.named (Constraint.revalues_edit edit) id).mono hgrows
  | pin v x => exact h.pin hregistered.named hbelow hgrows v x hafter
  | unpin v => exact (h.unpin v).mono hgrows
  | changeIntrinsic e axis change =>
      exact h.changeIntrinsic hregistered hbelow hgrows e axis change hafter
  | removeExternal e =>
      refine Tracked.mono ?_ hgrows
      show Tracked names (l.removeExternal e).2
      rw [removeExternal_snd]
      exact h.removeAll _
  | needsSize e axis => exact (h.needsSize e axis).mono hgrows

end Serve

section Split

variable {pair : Layout K × Layout K} {ms : List (Moving K)}

theorem Tracked.transfer
    (h : Tracked names pair.1)
    (hpart : Tracked names pair.2)
    (e : Entity) :
    Tracked names (transfer pair e).1 ∧ Tracked names (transfer pair e).2 := by
  cases hr : pair.1.entities.get? e with
  | none =>
      rw [transfer_of_get?_eq_none hr]
      exact ⟨h, hpart⟩
  | some r =>
      rw [transfer_of_get? hr]
      exact ⟨h.congr rfl ⟨_, rfl⟩, hpart.adopt e _ _⟩

theorem Tracked.transferAll
    (h : Tracked names l)
    (es : List Entity) (settings : Settings K) :
    Tracked names (es.foldl Layout.transfer (l, new settings)).1 ∧
      Tracked names (es.foldl Layout.transfer (l, new settings)).2 :=
  List.foldlRecOn es Layout.transfer (b := (l, new settings))
    (motive := fun pair => Tracked names pair.1 ∧ Tracked names pair.2)
    ⟨h, tracked_new names settings⟩ fun _ hboth e _ => hboth.1.transfer hboth.2 e

theorem Tracked.receiveAll
    (h : Tracked names l)
    (hdistinct : (ms.map fun m => m.constraint.id).Nodup)
    (hnew : ∀ m ∈ ms, l.isActive m.constraint.id = false)
    (hc : ∀ m ∈ ms, names m.constraint.id = some m.constraint.blueprint) :
    Tracked names (ms.foldl receive l) := by
  induction ms generalizing l with
  | nil =>
      exact h
  | cons m ms ih =>
      rw [List.map_cons, List.nodup_cons] at hdistinct
      have hrest : ∀ d ∈ ms, l.isActive d.constraint.id = false := fun d hd =>
        hnew d (List.mem_cons_of_mem m hd)
      have hnames : ∀ d ∈ ms, names d.constraint.id = some d.constraint.blueprint := fun d hd =>
        hc d (List.mem_cons_of_mem m hd)
      rw [List.foldl_cons]
      rcases receive_cases l m with ⟨s, heq, _⟩ | ⟨keys, s, _, _, heq⟩
      · rw [heq]
        exact ih (h.withSolver s) hdistinct.2 hrest hnames
      · have henforced : Tracked names (l.enforced m.constraint keys s) :=
          h.enforced (hnew m List.mem_cons_self) (hc m List.mem_cons_self)
        have hactive : ∀ d ∈ ms,
            (l.enforced m.constraint keys s).isActive d.constraint.id = false := by
          intro d hd
          have hne : d.constraint.id ≠ m.constraint.id := fun hid =>
            hdistinct.1 (hid ▸ List.mem_map_of_mem (f := fun m => m.constraint.id) hd)
          have hsame : (l.enforced m.constraint keys s).isActive d.constraint.id =
              l.isActive d.constraint.id :=
            isActive_congr ((get?_constraints_enforced _).trans (if_neg hne))
          exact hsame.trans (hrest d hd)
        rw [heq]
        split
        · exact ih (henforced.congr rfl ⟨_, rfl⟩) hdistinct.2 hactive hnames
        · exact ih henforced hdistinct.2 hactive hnames

/-- On both sides of a split the analysis has what is in force there. -/
theorem Tracked.split
    (h : Tracked names l)
    (hregistered : Registered names l)
    (root : Entity) (tree : ChildRelation) :
    Tracked names (l.split root tree).1 ∧ Tracked names (l.split root tree).2 := by
  unfold Layout.split
  obtain ⟨ids, hnodup, htaken, hids⟩ := exists_taken hregistered.lists (tree.subtree root)
  have howned : ∀ e ∈ tree.subtree root, (l.removeAll ids).ownedBy e = [] := fun e he =>
    ownedBy_removeAll_eq_nil hregistered.lists hids he
  have hpair := transferred_foldl l.settings howned
  obtain ⟨hrest, hpart⟩ := (h.removeAll ids).transferAll (tree.subtree root) l.settings
  simp only [htaken]
  generalize (tree.subtree root).foldl Layout.transfer (l.removeAll ids, new l.settings) = pair
    at hpair hrest hpart ⊢
  have hkept : Tracked names { pair.1 with
      pins := pair.1.pins.filter fun v _ => !(tree.subtree root).contains v.entity } :=
    hrest.congr rfl ⟨_, rfl⟩
  refine ⟨hkept.dropForeign, ?_⟩
  have hreceived := hpart.receiveAll
    (hnodup.sublist (map_id_moved_sublist hregistered.named ids))
    (fun m _ => by rw [isActive, hpair.part_constraints]; rfl) fun m hm => by
      obtain ⟨a, ha, hconstraint, _⟩ := exists_of_mem_moved hregistered.named hm
      exact hconstraint ▸ (hregistered.named _ a ha).2
  exact hreceived.congr rfl ⟨_, rfl⟩

end Split

section Join

/-- Layouts that have no constraint in common do not overwrite each other's when they are joined. -/
theorem Tracked.join
    (h : Tracked names l)
    (hother : Named names other)
    (hapart : Session.apart l other = true) :
    Tracked names (l.join other).2 := by
  have hadopted := adopted_joinEntities l other
  have hentities : Tracked names (l.joinEntities other).2 :=
    joinEntities_induction (P := Tracked names) (fun _ e _ _ _ hm => hm.adopt e _ _) h other
  have hstart : ∀ id, SameOf id ([], l) ([], (l.joinEntities other).2) := fun id =>
    ⟨Iff.rfl, by rw [hadopted.constraints], by rw [hadopted.system]⟩
  have hfold : ∀ entries : List (ConstraintId × ActiveConstraint K),
      (entries.map Prod.fst).Nodup →
      (∀ entry ∈ entries, other.constraints.get? entry.1 = some entry.2) →
      Tracked names (entries.foldl (joinConstraint other (l.superseded other))
        ([], (l.joinEntities other).2)).2 := by
    intro entries hnodup hentries
    induction entries using List.reverseRecOn with
    | nil =>
        exact hentities
    | append_singleton entries entry ih =>
        rw [List.map_append, List.nodup_append] at hnodup
        have hfresh : entry.1 ∉ entries.map Prod.fst := fun hmem =>
          hnodup.2.2 _ hmem _ (List.mem_map_of_mem List.mem_cons_self) rfl
        have hbefore := fun x hx => hentries x (List.mem_append_left [entry] hx)
        have hentry := hentries entry (List.mem_append_right _ List.mem_cons_self)
        obtain ⟨hid, hname⟩ := hother entry.1 entry.2 hentry
        have hmerged : Merged l other (l.superseded other) entries (entries.foldl
            (joinConstraint other (l.superseded other)) ([], (l.joinEntities other).2)) :=
          merged_foldl hstart hnodup.1 fun x hx => (hother x.1 x.2 (hbefore x hx)).1
        have hacc := ih hnodup.1 hbefore
        rw [List.foldl_append, List.foldl_cons, List.foldl_nil]
        generalize entries.foldl (joinConstraint other (l.superseded other))
          ([], (l.joinEntities other).2) = acc at hmerged hacc
        have hnew : acc.2.isActive entry.2.constraint.id = false := by
          rw [hid, isActive_congr (hmerged.untouched entry.1 hfresh).constraints]
          cases hactive : l.isActive entry.1 with
          | false => rfl
          | true =>
              have hforeign := Session.isActive_eq_false_of_apart hapart hactive
              rw [isActive_iff.2 ⟨_, hentry⟩] at hforeign
              cases hforeign
        rcases joinConstraint_cases other (l.superseded other) acc entry with
          ⟨_, heq⟩ | ⟨_, s, heq, _⟩ | ⟨_, keys, s, _, _, heq⟩
        · rw [heq]
          exact hacc
        · rw [heq]
          exact hacc.withSolver s
        · have henforced : Tracked names (acc.2.enforced entry.2.constraint keys s) :=
            hacc.enforced hnew (hid.symm ▸ hname)
          rw [heq]
          dsimp only
          split
          · exact henforced.congr rfl ⟨_, rfl⟩
          · exact henforced
  obtain ⟨pins, heq, _⟩ := joinPins_eq (l.newPins other).nodup_keys
    ((l.joinEntities other).2.joinConstraints other (l.superseded other)).2
  rw [join_eq, heq]
  exact (hfold _ other.constraints.nodup_keys fun entry hentry =>
    OrderedMap.get?_eq_some_iff.2 hentry).congr rfl ⟨_, rfl⟩

end Join

end Layout
end LinearLayout
