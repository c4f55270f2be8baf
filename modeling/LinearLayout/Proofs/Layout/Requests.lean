import LinearLayout.Proofs.Layout.Registry

/-!
# Requests keep the registry

Every request leaves all tables of a layout in agreement.  Some of them pass through states in
which the tables disagree: an entity goes before the constraints on it, and constraints for an
intrinsic size are marked before they are on record.
-/

namespace LinearLayout

namespace Layout

variable {K : Type} [Scalar K] {l : Layout K} {names later : Names} {id : ConstraintId}
  {c : Constraint K} {e : Entity} {v : Variable} {stale due : ConstraintId → Prop}

section Entities

variable {size : IntrinsicSize K} {sizes : PerAxis (List ConstraintId)}

theorem records_adopt
    (hnew : l.isManaged e = false)
    (h : Records names l id) :
    Records names (l.adopt e size sizes) id := by
  obtain ⟨b, hb, hrecord⟩ := h
  refine ⟨b, hb, hrecord.imp_right fun hid => ?_⟩
  obtain ⟨r, hr, hid⟩ := exists_of_mem_sizeConstraintsOf hid
  have hne : b.owner ≠ e := fun he => by
    rw [isManaged_iff.2 ⟨r, he ▸ hr⟩] at hnew
    cases hnew
  have hsame : (l.adopt e size sizes).entities.get? b.owner = some r := by
    rw [entities_adopt, OrderedMap.get?_insert, if_neg hne, hr]
  exact sizeConstraintsOf_of_get? hsame ▸ hid

theorem Filed.adopt
    (h : Filed names stale due l)
    (hnew : l.isManaged e = false)
    (size : IntrinsicSize K) (sizes : PerAxis (List ConstraintId)) :
    Filed names stale due (l.adopt e size sizes) where
  named := h.named
  closed := fun i a ha f hf => (isManaged_adopt f).2 (Or.inr (h.closed i a ha f hf))
  lists := fun f => (ownedBy_adopt f).trans (h.lists f)
  pinned := fun w i hw =>
    ⟨(isManaged_adopt w.entity).2 (Or.inr (h.pinned w i hw).1), (h.pinned w i hw).2⟩
  vouched := fun i hi hfresh =>
    ⟨(h.vouched i hi hfresh).1, (h.vouched i hi hfresh).2.imp_left (records_adopt hnew)⟩

theorem Settled.manage
    (h : Settled names stale l)
    (e : Entity) :
    Settled names stale (l.manage e) := by
  unfold Layout.manage
  split
  · exact h
  · next hnew => exact Filed.adopt h (Bool.eq_false_iff.2 hnew) _ _

end Entities

section Release

variable {r : ManagedEntity K}

/-- Once the list of the entity is gone, what is left has other owners. -/
theorem constraints_stripped
    (h : ∀ e, Lists l e) :
    (l.stripped e r).constraints = l.constraints.filter fun _ a => a.constraint.owner ≠ e := by
  have hremoved : (l.stripped e r).constraints =
      ((l.struck e r).removeAll (l.ownedBy e)).constraints := rfl
  rw [hremoved, constraints_removeAll]
  refine OrderedMap.filter_congr fun id a ha => ?_
  rw [decide_eq_decide, h e, mem_activeOf_iff]
  constructor
  · exact fun hid howner => hid ⟨a, ha, howner⟩
  · rintro hne ⟨b, hb, howner⟩
    exact hne (Option.some.inj (ha.symm.trans hb) ▸ howner)

theorem get?_constraints_stripped
    (h : ∀ e, Lists l e)
    {i : ConstraintId} {a : ActiveConstraint K} :
    (l.stripped e r).constraints.get? i = some a ↔
      l.constraints.get? i = some a ∧ a.constraint.owner ≠ e := by
  rw [constraints_stripped h, OrderedMap.get?_filter, Option.filter_eq_some_iff,
    decide_eq_true_iff]

theorem Settled.lists_stripped
    (h : Settled names stale l)
    (f : Entity) :
    Lists (l.stripped e r) f := by
  by_cases hf : f = e
  · subst hf
    have howned : (l.stripped f r).owned.get? f = none := by
      refine owned_removeAll_of_get?_eq_none ?_
      rw [Layout.struck, OrderedMap.get?_erase, if_pos rfl]
    have hactive : (l.stripped f r).activeOf f = [] := by
      refine List.eq_nil_iff_forall_not_mem.2 fun i hi => ?_
      obtain ⟨a, ha, howner⟩ := mem_activeOf_iff.1 hi
      exact ((get?_constraints_stripped h.lists).1 ha).2 howner
    rw [Lists, hactive, ownedBy, howned]
    rfl
  · have hstruck : Lists (l.struck e r) f := by
      rw [Lists, ownedBy_struck, if_neg hf]
      exact h.lists f
    exact hstruck.removeAll (l.ownedBy e)

theorem isManaged_stripped
    {f : Entity} :
    (l.stripped e r).isManaged f = true ↔ f ≠ e ∧ l.isManaged f = true := by
  rw [isManaged_iff, isManaged_iff, entities_stripped]
  simp only [OrderedMap.get?_erase]
  by_cases hf : f = e <;> simp [hf]

theorem Settled.pinned_stripped
    (h : Settled names stale l) :
    Pinned names (l.stripped e r) := by
  intro v i hv
  rw [pins_stripped, OrderedMap.get?_filter, Option.filter_eq_some_iff] at hv
  obtain ⟨hv, hne⟩ := hv
  obtain ⟨hmanaged, hname⟩ := h.pinned v i hv
  exact ⟨isManaged_stripped.2 ⟨by simpa using hne, hmanaged⟩, hname⟩

/-- What stays marked is not owned by the released entity, and neither is its record. -/
theorem Settled.vouched_stripped
    (h : Settled names stale l) :
    Vouched names stale (fun _ => False) (l.stripped e r) := by
  intro i hi hfresh
  obtain ⟨hi, howned⟩ := mem_system_removeAll.1 hi
  obtain ⟨hactive, hrecord⟩ := h.vouched i hi hfresh
  obtain ⟨a, ha⟩ := isActive_iff.1 hactive
  have howner : a.constraint.owner ≠ e := fun howner =>
    howned (h.lists e ▸ mem_activeOf_iff.2 ⟨a, ha, howner⟩)
  refine ⟨isActive_iff.2 ⟨a, (get?_constraints_stripped h.lists).2 ⟨ha, howner⟩⟩, Or.inl ?_⟩
  obtain ⟨b, hb, hrecord⟩ := hrecord.resolve_right not_false
  have hblueprint : a.constraint.blueprint = b := h.named.eq_of_get? ha hb
  have hbowner : b.owner ≠ e := hblueprint ▸ howner
  refine ⟨b, hb, ?_⟩
  rcases hrecord with ⟨v, rfl, hv⟩ | hsize
  · refine Or.inl ⟨v, rfl, ?_⟩
    rw [pins_stripped, OrderedMap.get?_filter, hv, Option.filter_some, if_pos]
    exact decide_eq_true hbowner
  · have hsame : (l.stripped e r).entities.get? b.owner = l.entities.get? b.owner := by
      rw [entities_stripped, OrderedMap.get?_erase, if_neg hbowner]
    exact Or.inr (sizeConstraintsOf_congr hsame ▸ hsize)

theorem Settled.release
    (h : Settled names stale l)
    (e : Entity) :
    Settled names stale (l.release e) := by
  cases hr : l.entities.get? e with
  | none => rwa [release_of_get?_eq_none hr]
  | some r =>
      rw [release_of_get? hr]
      refine filed_dropForeign (fun i a ha => ?_) h.lists_stripped h.pinned_stripped
        h.vouched_stripped
      exact h.named i a ((get?_constraints_stripped h.lists).1 ha).1

end Release


section Pins

theorem pin?_eq_none_iff :
    l.pin? v = none ↔ ∀ i, l.pins.get? v = some i → l.isActive i = false := by
  unfold Layout.pin?
  cases hv : l.pins.get? v with
  | none => simp
  | some i => simp [Option.filter]

/-- When a pin is forgotten, its record becomes due where its constraint is marked. -/
theorem Settled.erasePin
    (h : Settled names stale l)
    (hv : ∀ i, l.pins.get? v = some i → i ∈ l.system.toList → ¬ stale i → due i) :
    Filed names stale due { l with pins := l.pins.erase v } where
  named := h.named
  closed := h.closed
  lists := h.lists
  pinned := by
    intro w i hw
    rw [OrderedMap.get?_erase] at hw
    split at hw
    · cases hw
    · exact h.pinned w i hw
  vouched := by
    intro i hi hfresh
    obtain ⟨hactive, hrecord⟩ := h.vouched i hi hfresh
    refine ⟨hactive, ?_⟩
    obtain ⟨b, hb, ⟨w, hbw, hw⟩ | hsize⟩ := hrecord.resolve_right not_false
    · by_cases hwv : w = v
      · exact Or.inr (hv i (hwv ▸ hw) hi hfresh)
      · refine Or.inl ⟨b, hb, Or.inl ⟨w, hbw, ?_⟩⟩
        rw [OrderedMap.get?_erase, if_neg hwv, hw]
    · exact Or.inl ⟨b, hb, Or.inr hsize⟩

theorem pins_update
    (l : Layout K) (id : ConstraintId) (edit : Constraint K → Constraint K) :
    (l.update id edit).2.pins = l.pins := by
  rcases update_cases l id edit with ⟨_, heq⟩ | ⟨c, _, ⟨keys, s, heq, _⟩ | ⟨cause, s, heq⟩⟩
  · rw [heq]
  · rw [heq]
    exact pins_without
  · rw [heq]
    exact pins_without

theorem Settled.not_mem_system_of_update
    {edit : Constraint K → Constraint K} {cause : LayoutError K}
    (h : Settled names stale l)
    (hfresh : ¬ stale id)
    (herror : (l.update id edit).1 = .error cause) :
    id ∉ (l.update id edit).2.system.toList := by
  rcases update_cases l id edit with ⟨hnone, heq⟩ | ⟨c, _, ⟨keys, s, heq, _⟩ | ⟨reason, s, heq⟩⟩
  · intro hmem
    rw [heq] at hmem
    obtain ⟨a, ha⟩ := isActive_iff.1 (h.vouched id hmem hfresh).1
    rw [constraint?, ha] at hnone
    cases hnone
  · rw [heq] at herror
    cases herror
  · rw [heq]
    exact fun hmem => (OrderedSet.mem_toList_erase.1 hmem).1 rfl

theorem Settled.movePin
    (h : Settled names stale l)
    (hv : l.pins.get? v = some id)
    (x : K) :
    Settled names stale (l.movePin v id x).2 := by
  have hupdated := h.revalue (Constraint.revalues_withOffset x) id
  unfold Layout.movePin
  split
  · next m heq => rwa [heq] at hupdated
  · next cause m heq =>
    have hpins : m.pins = l.pins :=
      (congrArg (fun r => r.2.pins) heq).symm.trans (pins_update _ _ _)
    have hunmarked : ¬ stale id → id ∉ m.system.toList := by
      intro hfresh
      have herror := h.not_mem_system_of_update hfresh (congrArg Prod.fst heq)
      rwa [heq] at herror
    rw [heq] at hupdated
    refine hupdated.erasePin fun i hi hmem hfresh => ?_
    rw [hpins, hv, Option.some.injEq] at hi
    subst hi
    exact hunmarked hfresh hmem

theorem Settled.newPin
    (h : Settled names stale l)
    (hid : names id = some (.pin v))
    (hmanaged : l.isManaged v.entity = true)
    (hfree : l.pin? v = none)
    (x : K) :
    Settled names stale (l.newPin v id x).2 := by
  unfold Layout.newPin
  rcases install_cases l (.toValue id v .equal x) with ⟨cause, s, heq, _⟩ | ⟨keys, s, heq, hc, _⟩
  · rw [heq]
    exact h.withSolver s
  · rw [heq]
    have hpinned : Filed names stale (fun i => False ∨ i = id)
        ((l.enforced (.toValue id v .equal x) keys s).markSystem id) :=
      (h.enforced hid hc).markSystem isActive_enforced_self
    refine ⟨hpinned.named, hpinned.closed, hpinned.lists, fun w i hw => ?_,
      fun i hi hfresh => ?_⟩
    · rw [OrderedMap.get?_insert] at hw
      split at hw
      · next hwv =>
        cases hw
        exact ⟨hwv ▸ hmanaged, hwv ▸ hid⟩
      · exact hpinned.pinned w i hw
    · refine ⟨(hpinned.vouched i hi hfresh).1, Or.inl ?_⟩
      rcases OrderedSet.mem_toList_insert.1 hi with hi | rfl
      · obtain ⟨hactive, hrecord⟩ := h.vouched i hi hfresh
        obtain ⟨b, hb, hrecord⟩ := hrecord.resolve_right not_false
        refine ⟨b, hb, hrecord.imp_left ?_⟩
        rintro ⟨w, hbw, hw⟩
        have hne : w ≠ v := fun hwv => by
          have hinactive := pin?_eq_none_iff.1 hfree i (hwv ▸ hw)
          rw [hactive] at hinactive
          cases hinactive
        exact ⟨w, hbw, by rw [OrderedMap.get?_insert, if_neg hne]; exact hw⟩
      · exact ⟨_, hid, Or.inl ⟨v, rfl, by rw [OrderedMap.get?_insert, if_pos rfl]⟩⟩

theorem Settled.unpin
    (h : Settled names stale l)
    (v : Variable) :
    Settled names stale (l.unpin v) := by
  unfold Layout.unpin
  cases hv : l.pins.get? v with
  | none => exact h
  | some id =>
      have herased : Filed names stale (fun i => i = id) { l with pins := l.pins.erase v } :=
        h.erasePin fun i hi _ _ => Option.some.inj (hi.symm.trans hv)
      exact (herased.remove id).imp fun _ hdue => hdue.2 hdue.1

end Pins

section Sizes

variable {axis : Axis} {r : ManagedEntity K} {ids : List ConstraintId} {cs : List (Constraint K)}
  {due' : ConstraintId → Prop}

/-- A change of one record of an entity; the names that it takes off the record become due. -/
theorem Filed.modify
    (h : Filed names stale due l)
    (f : ManagedEntity K → ManagedEntity K)
    (hrecord : ∀ i, Records names l i ∨ due i →
      Records names { l with entities := l.entities.modify e f } i ∨ due' i) :
    Filed names stale due' { l with entities := l.entities.modify e f } where
  named := h.named
  closed := fun i a ha g hg => (isManaged_modify f g).trans (h.closed i a ha g hg)
  lists := h.lists
  pinned := fun w i hw =>
    ⟨(isManaged_modify f w.entity).trans (h.pinned w i hw).1, (h.pinned w i hw).2⟩
  vouched := fun i hi hfresh =>
    ⟨(h.vouched i hi hfresh).1, hrecord i (h.vouched i hi hfresh).2⟩

theorem Filed.storeIntrinsic
    (h : Filed names stale due l)
    (e : Entity) (axis : Axis) (a : AxisIntrinsic K) :
    Filed names stale due (l.storeIntrinsic e axis a) := by
  refine h.modify _ fun i hi => hi.imp_left ?_
  rintro ⟨b, hb, hrecord⟩
  refine ⟨b, hb, hrecord.imp_right fun hsize => ?_⟩
  rw [sizeConstraintsOf_modify]
  split
  · next howner => rwa [howner] at hsize
  · exact hsize

/-- New names for the size of an entity; the old ones become due. -/
theorem Filed.storeSizeConstraints
    (h : Filed names stale due l)
    (hr : l.entities.get? e = some r)
    (hdue : ∀ i, due i → (i ∈ ids ∧ ∃ b, names i = some b ∧ b.owner = e) ∨ due' i)
    (hold : ∀ i ∈ r.sizeConstraints.get axis, due' i) :
    Filed names stale due' (l.storeSizeConstraints e axis ids) := by
  refine h.modify _ fun i hi => ?_
  rcases hi with ⟨b, hb, hpin | hsize⟩ | hi
  · exact Or.inl ⟨b, hb, Or.inl hpin⟩
  · by_cases howner : b.owner = e
    · rw [howner, sizeConstraintsOf_of_get? hr, PerAxis.mem_flatten_toList] at hsize
      obtain ⟨other, hmem⟩ := hsize
      by_cases hother : other = axis
      · exact Or.inr (hold i (hother ▸ hmem))
      · refine Or.inl ⟨b, hb, Or.inr ?_⟩
        rw [howner]
        exact (mem_sizeConstraintsOf_stored hr).2 (Or.inr ⟨other, hother, hmem⟩)
    · refine Or.inl ⟨b, hb, Or.inr ?_⟩
      rwa [sizeConstraintsOf_modify, if_neg howner]
  · rcases hdue i hi with ⟨hmem, b, hb, howner⟩ | hi
    · refine Or.inl ⟨b, hb, Or.inr ?_⟩
      rw [howner]
      exact (mem_sizeConstraintsOf_stored hr).2 (Or.inl hmem)
    · exact Or.inr hi

/-- All constraints that come into force are marked, and their records are due. -/
theorem Filed.installSystem
    (h : Filed names stale due l)
    (hcs : ∀ c ∈ cs, names c.id = some c.blueprint) :
    Filed names stale (fun i => due i ∨ i ∈ (l.installSystem cs).2.1) (l.installSystem cs).2.2 := by
  induction cs generalizing l due with
  | nil =>
      exact h.imp fun _ => Or.inl
  | cons c cs ih =>
      have hc := hcs c List.mem_cons_self
      have hrest : ∀ d ∈ cs, names d.id = some d.blueprint := fun d hd =>
        hcs d (List.mem_cons_of_mem c hd)
      rcases install_cases l c with ⟨cause, s, heq, _⟩ | ⟨keys, s, heq, hmanaged, _⟩
      · rw [installSystem_of_error heq]
        exact ih (h.withSolver s) hrest
      · rw [installSystem_of_ok heq]
        refine (ih ((h.enforced hc hmanaged).markSystem isActive_enforced_self) hrest).imp ?_
        rintro i ((hi | rfl) | hi)
        · exact Or.inl hi
        · exact Or.inr List.mem_cons_self
        · exact Or.inr (List.mem_cons_of_mem _ hi)

theorem Settled.cleared
    (h : Settled names stale l)
    (hr : l.entities.get? e = some r)
    (axis : Axis) (a : AxisIntrinsic K) :
    Settled names stale (l.cleared e axis r a) := by
  have hstored := get?_entities_storeIntrinsic hr axis a
  have hemptied : Filed names stale (fun i => i ∈ r.sizeConstraints.get axis)
      ((l.storeIntrinsic e axis a).storeSizeConstraints e axis []) :=
    (h.storeIntrinsic e axis a).storeSizeConstraints hstored (fun _ hi => hi.elim) fun _ hi => hi
  exact ((hemptied.removeAll _).imp fun i hi => hi.2 hi.1).withNecessity _

theorem Settled.changeIntrinsic
    (h : Settled names stale l)
    {supply : IdSupply}
    (hbelow : names.Below supply.next)
    (e : Entity) (axis : Axis) (change : IntrinsicChange K) :
    ∃ later, names.Extends later ∧
      later.Below (l.changeIntrinsic supply e axis change).2.2.next ∧
      Settled later stale (l.changeIntrinsic supply e axis change).2.1 := by
  cases hr : l.entities.get? e with
  | none =>
      rw [changeIntrinsic_of_get?_eq_none hr]
      exact ⟨names, .refl names, hbelow, h⟩
  | some r =>
      rw [changeIntrinsic_of_get? hr]
      generalize (r.intrinsic.get axis).change change = after
      split
      · exact ⟨names, .refl names, hbelow, h.storeIntrinsic e axis after⟩
      · have hnames : ∀ f ∈ after.demands e axis, ∀ id, (f id).id = id := fun f hf =>
          AxisIntrinsic.id_of_mem_demands hf
        obtain ⟨later, hissues, hlater⟩ := Names.exists_issues hbelow hnames
        refine ⟨later, hissues.grows, hlater, ?_⟩
        have hcleared := (h.cleared hr axis after).mono hissues.grows
        refine (hcleared.installSystem hissues.named).storeSizeConstraints
          ((congrArg (OrderedMap.get? · e) (entities_installSystem _ _)).trans
            (get?_entities_cleared hr axis after)) ?_ ?_
        · rintro i (hi | hi)
          · exact hi.elim
          · obtain ⟨c, hc, rfl⟩ := List.mem_map.1 ((installSystem_sublist _ _).subset hi)
            obtain ⟨f, hf, id, rfl⟩ := IdSupply.exists_of_mem_assign hc
            exact Or.inl ⟨hi, _, hissues.named _ hc, AxisIntrinsic.owner_of_mem_demands hf id⟩
        · intro i hi
          rw [PerAxis.get_set_self] at hi
          cases hi

end Sizes

section Serve

theorem Settled.pin
    (h : Settled names stale l)
    {supply : IdSupply}
    (hbelow : names.Below supply.next)
    (v : Variable) (x : K) :
    ∃ later, names.Extends later ∧ later.Below (l.pin supply v x).2.2.next ∧
      Settled later stale (l.pin supply v x).2.1 := by
  unfold Layout.pin
  split
  · next hmanaged =>
    cases hpin : l.pin? v with
    | some id =>
        have hid : l.pins.get? v = some id := (Option.filter_eq_some_iff.1 hpin).1
        exact ⟨names, .refl names, hbelow, h.movePin hid x⟩
    | none =>
        have hfree : names ⟨supply.next⟩ = none := hbelow.eq_none (Nat.le_refl _)
        have hgrows := Names.extends_give (b := .pin v) hfree
        exact ⟨_, hgrows, hbelow.give _,
          Settled.newPin (h.mono hgrows) (Names.give_self _ _ _) hmanaged hpin x⟩
  · exact ⟨names, .refl names, hbelow, h⟩

/-- The tables agree after every request, for the names in use by then. -/
theorem Settled.serve
    (h : Settled names stale l)
    {supply : IdSupply}
    (hbelow : names.Below supply.next)
    (request : Request K) :
    ∃ later, names.Extends later ∧ later.Below (l.serve supply request).2.next ∧
      Settled later stale (l.serve supply request).1 := by
  cases request with
  | manage e => exact ⟨names, .refl names, hbelow, h.manage e⟩
  | release e => exact ⟨names, .refl names, hbelow, h.release e⟩
  | remove id =>
      exact ⟨names, .refl names, hbelow, (Filed.remove h id).imp fun _ hdue => hdue.1⟩
  | update id edit =>
      exact ⟨names, .refl names, hbelow, h.revalue (Constraint.revalues_edit edit) id⟩
  | pin v x => exact h.pin hbelow v x
  | unpin v => exact ⟨names, .refl names, hbelow, h.unpin v⟩
  | changeIntrinsic e axis change => exact h.changeIntrinsic hbelow e axis change
  | removeExternal e =>
      refine ⟨names, .refl names, hbelow, ?_⟩
      show Settled names stale (l.removeExternal e).2
      rw [removeExternal_snd]
      exact (Filed.removeAll h _).imp fun _ hdue => hdue.1
  | needsSize e axis =>
      refine ⟨names, .refl names, hbelow, ?_⟩
      show Settled names stale (l.needsSize e axis).2
      unfold needsSize
      split
      · exact Filed.withNecessity h _
      · exact h

end Serve

end Layout
end LinearLayout
