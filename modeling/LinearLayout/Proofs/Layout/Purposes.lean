import LinearLayout.Proofs.Layout.Union

/-!
# Every name on record serves one purpose

A layout keeps names of constraints for two purposes: to find the pin of a variable again, and to
find the constraints again that were made from an intrinsic size.  The names on record are new when
they are entered, and later they only change places, so in a whole session no name is on record for
two purposes.
-/

namespace LinearLayout

/-- What a constraint is on record for. -/
inductive Purpose where
  /-- It holds the value of a pinned variable. -/
  | value (v : Variable)
  /-- It was made from the intrinsic size of an entity along an axis. -/
  | size (e : Entity) (axis : Axis)

/-- The purpose for which a request may enter names. -/
def Request.purpose? {K : Type} : Request K → Option Purpose
  | .pin v _ => some (.value v)
  | .changeIntrinsic e axis _ => some (.size e axis)
  | _ => none

/-- The purpose for which an event may enter names. -/
def Event.purpose? {K : Type} [Scalar K] : Event K → Option Purpose
  | .ask _ request => request.purpose?
  | _ => none

namespace IdSupply

variable {K : Type} [Scalar K] {supply : IdSupply} {fs : List (ConstraintId → Constraint K)}
  {c : Constraint K}

theorem next_assign
    {α : Type} (supply : IdSupply) (fs : List (ConstraintId → α)) :
    (supply.assign fs).2.next = supply.next + fs.length := by
  induction fs generalizing supply with
  | nil =>
      rfl
  | cons f fs ih =>
      have hlast : (supply.assign (f :: fs)).2 = (supply.take.2.assign fs).2 := rfl
      have htake : supply.take.2.next = supply.next + 1 := rfl
      rw [hlast, ih, htake, List.length_cons]
      omega

/-- The names given out are those from the next one on. -/
theorem number_of_mem_assign
    (hfs : ∀ f ∈ fs, ∀ id, (f id).id = id)
    (hc : c ∈ (supply.assign fs).1) :
    supply.next ≤ c.id.number ∧ c.id.number < (supply.assign fs).2.next := by
  induction fs generalizing supply with
  | nil =>
      cases hc
  | cons f fs ih =>
      have hnext := next_assign supply (f :: fs)
      rcases List.mem_cons.1 hc with rfl | hc
      · have hfirst : (f ⟨supply.next⟩).id.number = supply.next :=
          congrArg ConstraintId.number (hfs f List.mem_cons_self _)
        rw [hnext, hfirst, List.length_cons]
        omega
      · obtain ⟨hlow, hhigh⟩ := ih (fun g hg => hfs g (List.mem_cons_of_mem f hg)) hc
        exact ⟨Nat.le_of_succ_le hlow, hhigh⟩

end IdSupply

namespace Layout

variable {K : Type} [Scalar K] {l other m : Layout K} {names : Names} {id i : ConstraintId}
  {c : Constraint K} {e : Entity} {p : Purpose} {supply : IdSupply}

/-- A layout has a name on record for a purpose. -/
def Uses (l : Layout K) (id : ConstraintId) : Purpose → Prop
  | .value v => l.pins.get? v = some id
  | .size e axis => ∃ r, l.entities.get? e = some r ∧ id ∈ r.sizeConstraints.get axis

/-- A pin holds while its constraint is active; the record alone is not enough. -/
theorem pin?_eq_some_iff
    {v : Variable} :
    l.pin? v = some id ↔ l.Uses id (.value v) ∧ l.isActive id = true :=
  Option.filter_eq_some_iff

section Writers

theorem not_uses_new
    (settings : Settings K) :
    ¬ (new settings).Uses id p := by
  intro h
  cases p with
  | value v => cases h
  | size e axis =>
      obtain ⟨_, hr, _⟩ := h
      cases hr

theorem uses_congr
    (hpins : m.pins = l.pins)
    (hentities : m.entities = l.entities) :
    m.Uses id p ↔ l.Uses id p := by
  cases p with
  | value v => rw [Uses, Uses, hpins]
  | size e axis => rw [Uses, Uses, hentities]

/-- Only what goes along with an entity matters. -/
theorem uses_size_congr
    {axis : Axis}
    (h : (m.entities.get? e).map ManagedEntity.kept = (l.entities.get? e).map ManagedEntity.kept) :
    m.Uses id (.size e axis) ↔ l.Uses id (.size e axis) := by
  have hkept : ∀ u : Layout K, u.Uses id (.size e axis) ↔
      ∃ k, (u.entities.get? e).map ManagedEntity.kept = some k ∧ id ∈ k.2.get axis := by
    intro u
    constructor
    · rintro ⟨r, hr, hid⟩
      exact ⟨r.kept, by rw [hr]; rfl, hid⟩
    · rintro ⟨k, hk, hid⟩
      obtain ⟨r, hr, rfl⟩ := Option.map_eq_some_iff.1 hk
      exact ⟨r, hr, hid⟩
  rw [hkept, hkept, h]

theorem Uses.isManaged
    {axis : Axis}
    (h : l.Uses id (.size e axis)) :
    l.isManaged e = true := by
  obtain ⟨r, hr, _⟩ := h
  exact isManaged_iff.2 ⟨r, hr⟩

theorem uses_install :
    (l.install c).2.Uses id p ↔ l.Uses id p := by
  rcases install_cases l c with ⟨_, s, heq, _⟩ | ⟨keys, s, heq, _⟩
  · rw [heq]
    exact uses_congr rfl rfl
  · rw [heq]
    exact uses_congr rfl rfl

theorem uses_without :
    (l.without i).Uses id p ↔ l.Uses id p :=
  uses_congr pins_without entities_without

theorem uses_removeAll
    {ids : List ConstraintId} :
    (l.removeAll ids).Uses id p ↔ l.Uses id p :=
  uses_congr pins_removeAll entities_removeAll

theorem uses_update
    {edit : Constraint K → Constraint K} :
    (l.update i edit).2.Uses id p ↔ l.Uses id p := by
  rcases update_cases l i edit with ⟨_, heq⟩ | ⟨c, _, ⟨keys, s, heq, _⟩ | ⟨cause, s, heq⟩⟩
  · rw [heq]
  · rw [heq]
    exact (uses_congr rfl rfl).trans uses_without
  · rw [heq]
    exact (uses_congr rfl rfl).trans uses_without

theorem Uses.of_erase_pin
    {v : Variable}
    (h : Uses { l with pins := l.pins.erase v } id p) :
    l.Uses id p := by
  cases p with
  | size e axis => exact h
  | value w =>
      have hw : (l.pins.erase v).get? w = some id := h
      rw [OrderedMap.get?_erase] at hw
      split at hw
      · cases hw
      · exact hw

theorem Uses.of_manage
    (h : (l.manage e).Uses id p) :
    l.Uses id p := by
  unfold manage at h
  split at h
  · exact h
  · cases p with
    | value v => exact h
    | size f axis =>
        obtain ⟨r, hr, hid⟩ := h
        rw [entities_adopt, OrderedMap.get?_insert] at hr
        split at hr
        · cases hr
          cases axis <;> cases hid
        · exact ⟨r, hr, hid⟩

theorem Uses.of_release
    (h : (l.release e).Uses id p) :
    l.Uses id p := by
  cases hr : l.entities.get? e with
  | none => rwa [release_of_get?_eq_none hr] at h
  | some r =>
      rw [release_of_get? hr, dropForeign, uses_removeAll] at h
      cases p with
      | value v =>
          have hv : (l.stripped e r).pins.get? v = some id := h
          rw [pins_stripped, OrderedMap.get?_filter, Option.filter_eq_some_iff] at hv
          exact hv.1
      | size f axis =>
          obtain ⟨k, hk, hid⟩ := h
          rw [entities_stripped, OrderedMap.get?_erase] at hk
          split at hk
          · cases hk
          · exact ⟨k, hk, hid⟩

end Writers

section Serve

variable {v : Variable} {x : K} {axis : Axis} {r : ManagedEntity K} {ids : List ConstraintId}
  {cs : List (Constraint K)}

theorem Uses.of_movePin
    (h : (l.movePin v i x).2.Uses id p) :
    l.Uses id p := by
  have hupdate : (l.update i fun c => c.withOffset x).2.Uses id p ↔ l.Uses id p := uses_update
  unfold movePin at h
  split at h
  · next m heq =>
    rw [heq] at hupdate
    exact hupdate.1 h
  · next cause m heq =>
    rw [heq] at hupdate
    exact hupdate.1 h.of_erase_pin

theorem Uses.of_newPin
    (h : (l.newPin v i x).2.Uses id p) :
    l.Uses id p ∨ (p = .value v ∧ id = i) := by
  unfold newPin at h
  rcases install_cases l (.toValue i v .equal x) with ⟨cause, s, heq, _⟩ | ⟨keys, s, heq, _⟩
  · rw [heq] at h
    exact Or.inl ((uses_congr rfl rfl).1 h)
  · rw [heq] at h
    cases p with
    | size e axis => exact Or.inl h
    | value w =>
        have hw : (l.pins.insert v i).get? w = some id := h
        rw [OrderedMap.get?_insert] at hw
        split at hw
        · next hwv => exact Or.inr ⟨congrArg Purpose.value hwv, (Option.some.inj hw).symm⟩
        · exact Or.inl hw

theorem Uses.of_pin
    (h : (l.pin supply v x).2.1.Uses id p) :
    l.Uses id p ∨ (p = .value v ∧ id.number = supply.next ∧
      (l.pin supply v x).2.2.next = supply.next + 1) := by
  unfold Layout.pin at h ⊢
  split
  · next hmanaged =>
    rw [if_pos hmanaged] at h
    cases hpin : l.pin? v with
    | some j =>
        rw [hpin] at h
        exact Or.inl h.of_movePin
    | none =>
        rw [hpin] at h
        refine h.of_newPin.imp_right ?_
        rintro ⟨hp, rfl⟩
        exact ⟨hp, rfl, rfl⟩
  · next hforeign =>
    rw [if_neg hforeign] at h
    exact Or.inl h

theorem Uses.of_unpin
    (h : (l.unpin v).Uses id p) :
    l.Uses id p := by
  unfold unpin at h
  split at h
  · exact h
  · exact ((uses_congr pins_remove entities_remove).1 h).of_erase_pin

theorem Uses.of_modify
    {f : ManagedEntity K → ManagedEntity K}
    (h : Uses { l with entities := l.entities.modify e f } id p) :
    l.Uses id p ∨ ∃ r axis, p = .size e axis ∧ l.entities.get? e = some r ∧
      id ∈ (f r).sizeConstraints.get axis := by
  cases p with
  | value v => exact Or.inl h
  | size g axis =>
      obtain ⟨k, hk, hid⟩ := h
      rw [OrderedMap.get?_modify] at hk
      split at hk
      · next hg =>
        obtain ⟨r, hr, rfl⟩ := Option.map_eq_some_iff.1 hk
        exact Or.inr ⟨r, axis, by rw [hg], hr, hid⟩
      · exact Or.inl ⟨k, hk, hid⟩

theorem Uses.of_storeIntrinsic
    {a : AxisIntrinsic K}
    (h : (l.storeIntrinsic e axis a).Uses id p) :
    l.Uses id p := by
  rcases h.of_modify with h | ⟨r, other, rfl, hr, hid⟩
  · exact h
  · exact ⟨r, hr, hid⟩

theorem Uses.of_storeSizeConstraints
    (h : (l.storeSizeConstraints e axis ids).Uses id p) :
    l.Uses id p ∨ (p = .size e axis ∧ id ∈ ids) := by
  rcases h.of_modify with h | ⟨r, other, rfl, hr, hid⟩
  · exact Or.inl h
  · by_cases hother : other = axis
    · subst hother
      rw [PerAxis.get_set_self] at hid
      exact Or.inr ⟨rfl, hid⟩
    · rw [PerAxis.get_set_of_ne _ _ hother] at hid
      exact Or.inl ⟨r, hr, hid⟩

theorem uses_installSystem :
    (l.installSystem cs).2.2.Uses id p ↔ l.Uses id p := by
  induction cs generalizing l with
  | nil =>
      rfl
  | cons c cs ih =>
      have hinstall : (l.install c).2.Uses id p ↔ l.Uses id p := uses_install
      rcases hfirst : l.install c with ⟨cause | _, m⟩
      · rw [hfirst] at hinstall
        rw [installSystem_of_error hfirst]
        exact ih.trans hinstall
      · rw [hfirst] at hinstall
        rw [installSystem_of_ok hfirst]
        exact ih.trans ((uses_congr rfl rfl).trans hinstall)

theorem Uses.of_cleared
    {a : AxisIntrinsic K}
    (h : (l.cleared e axis r a).Uses id p) :
    l.Uses id p := by
  have hemptied : ((l.storeIntrinsic e axis a).storeSizeConstraints e axis []).Uses id p :=
    uses_removeAll.1 ((uses_congr rfl rfl).1 h)
  rcases hemptied.of_storeSizeConstraints with hstored | ⟨_, hid⟩
  · exact hstored.of_storeIntrinsic
  · cases hid

theorem Uses.of_changeIntrinsic
    {change : IntrinsicChange K}
    (h : (l.changeIntrinsic supply e axis change).2.1.Uses id p) :
    l.Uses id p ∨ (p = .size e axis ∧ supply.next ≤ id.number ∧
      id.number < (l.changeIntrinsic supply e axis change).2.2.next) := by
  cases hr : l.entities.get? e with
  | none =>
      rw [changeIntrinsic_of_get?_eq_none hr] at h
      exact Or.inl h
  | some r =>
      rw [changeIntrinsic_of_get? hr] at h ⊢
      generalize (r.intrinsic.get axis).change change = after at h ⊢
      split
      · next hsame =>
        rw [if_pos hsame] at h
        exact Or.inl h.of_storeIntrinsic
      · next hsame =>
        rw [if_neg hsame] at h
        rcases h.of_storeSizeConstraints with hold | ⟨hp, hid⟩
        · exact Or.inl (uses_installSystem.1 hold).of_cleared
        · obtain ⟨c, hc, rfl⟩ := List.mem_map.1 ((installSystem_sublist _ _).subset hid)
          exact Or.inr ⟨hp, IdSupply.number_of_mem_assign
            (fun f hf => AxisIntrinsic.id_of_mem_demands hf) hc⟩

theorem next_le_serve
    (l : Layout K) (supply : IdSupply) (request : Request K) :
    supply.next ≤ (l.serve supply request).2.next := by
  cases request with
  | pin v x =>
      show supply.next ≤ (l.pin supply v x).2.2.next
      unfold Layout.pin
      split
      · cases l.pin? v with
        | some id => exact Nat.le_refl _
        | none => exact Nat.le_succ _
      · exact Nat.le_refl _
  | changeIntrinsic e axis change =>
      show supply.next ≤ (l.changeIntrinsic supply e axis change).2.2.next
      cases hr : l.entities.get? e with
      | none =>
          exact Nat.le_of_eq (by rw [changeIntrinsic_of_get?_eq_none hr])
      | some r =>
          rw [changeIntrinsic_of_get? hr]
          split
          · exact Nat.le_refl _
          · have hnext := IdSupply.next_assign supply
              (((r.intrinsic.get axis).change change).demands e axis)
            exact hnext ▸ Nat.le_add_right _ _
  | _ => exact Nat.le_refl _

/-- What a request puts on record is new and for the purpose of the request. -/
theorem Uses.of_serve
    {request : Request K}
    (h : (l.serve supply request).1.Uses id p) :
    l.Uses id p ∨ (request.purpose? = some p ∧ supply.next ≤ id.number ∧
      id.number < (l.serve supply request).2.next) := by
  cases request with
  | manage e => exact Or.inl (of_manage h)
  | release e => exact Or.inl (of_release h)
  | remove i => exact Or.inl ((uses_congr pins_remove entities_remove).1 h)
  | update i edit => exact Or.inl (uses_update.1 h)
  | pin v x =>
      refine (of_pin h).imp_right ?_
      rintro ⟨rfl, hnumber, hnext⟩
      refine ⟨rfl, Nat.le_of_eq hnumber.symm, ?_⟩
      show id.number < (l.pin supply v x).2.2.next
      omega
  | unpin v => exact Or.inl (of_unpin h)
  | changeIntrinsic e axis change =>
      refine (of_changeIntrinsic h).imp_right ?_
      rintro ⟨rfl, hnumber⟩
      exact ⟨rfl, hnumber⟩
  | removeExternal e =>
      have hremoved : (l.removeExternal e).2.Uses id p := h
      rw [removeExternal_snd] at hremoved
      exact Or.inl (uses_removeAll.1 hremoved)
  | needsSize e axis =>
      have hasked : (l.needsSize e axis).2.Uses id p := h
      unfold needsSize at hasked
      split at hasked
      · exact Or.inl ((uses_congr rfl rfl).1 hasked)
      · exact Or.inl hasked

end Serve

section Moves

variable {rest part : Layout K} {inside : Entity → Prop} {refused : List ConstraintId}

/-- The records go with their entities. -/
theorem Partition.of_uses
    (h : Partition l inside refused rest part)
    (huses : rest.Uses id p ∨ part.Uses id p) :
    l.Uses id p := by
  cases p with
  | value v =>
      rcases huses with hrest | hpart
      · exact ((h.pins_rest v id).1 hrest).1
      · exact ((h.pins_part v id).1 hpart).1
  | size e axis =>
      rcases huses with hrest | hpart
      · have houtside := ((h.managed_rest e).1 hrest.isManaged).2
        exact (uses_size_congr (h.sizes_rest e houtside)).1 hrest
      · have hinside := ((h.managed_part e).1 hpart.isManaged).2
        exact (uses_size_congr (h.sizes_part e hinside)).1 hpart

theorem get?_pins_join
    {v : Variable} :
    (l.join other).2.pins.get? v = some id ↔
      ((l.newPins other).get? v = some id ∧ (l.join other).2.isActive id = true) ∨
        l.pins.get? v = some id := by
  have hpins : ((l.joinEntities other).2.joinConstraints other (l.superseded other)).2.pins =
      l.pins := pins_foldl_joinConstraint.trans (adopted_joinEntities l other).pins
  obtain ⟨pins, heq, hget⟩ := exists_joinPins hpins other
  rw [join_eq, heq]
  exact hget v id

/-- The records of a join come from either side. -/
theorem Uses.of_join
    (h : (l.join other).2.Uses id p) :
    l.Uses id p ∨ other.Uses id p := by
  cases p with
  | value v =>
      rcases get?_pins_join.1 h with ⟨hnew, _⟩ | hold
      · exact Or.inr ((get?_newPins v).1 hnew).1
      · exact Or.inl hold
  | size e axis =>
      have hkept := kept_joinEntities l other e
      rw [← entities_join] at hkept
      split at hkept
      · exact Or.inl ((uses_size_congr hkept).1 h)
      · exact Or.inr ((uses_size_congr hkept).1 h)

end Moves

end Layout

namespace Session

variable {K : Type} [Scalar K] {s : Session K} {names : Names} {id : ConstraintId} {p : Purpose}
  {h : Handle} {l : Layout K}

/-- Some layout of a session has a name on record for a purpose. -/
def Uses (s : Session K) (id : ConstraintId) (p : Purpose) : Prop :=
  ∃ h l, s.layout? h = some l ∧ l.Uses id p

theorem next_le_step
    (s : Session K) (event : Event K) :
    s.ids.next ≤ (s.step event).ids.next := by
  cases event with
  | make owner items edit => exact Nat.le_succ _
  | ask h request =>
      show s.ids.next ≤ (s.ask h request).ids.next
      unfold Session.ask
      cases s.layout? h with
      | none => exact Nat.le_refl _
      | some l => exact l.next_le_serve s.ids request
  | copy h id => exact Nat.le_refl _
  | start settings => exact Nat.le_refl _
  | add h index edit =>
      show s.ids.next ≤ (s.add h index edit).ids.next
      unfold Session.add
      split <;> exact Nat.le_refl _
  | replace h id index edit =>
      show s.ids.next ≤ (s.replace h id index edit).ids.next
      unfold Session.replace
      split <;> exact Nat.le_refl _
  | split h root tree =>
      show s.ids.next ≤ (s.split h root tree).ids.next
      unfold Session.split
      split <;> exact Nat.le_refl _
  | join target source =>
      show s.ids.next ≤ (s.join target source).ids.next
      unfold Session.join
      split <;> exact Nat.le_refl _

/-- The step: what is on record afterwards was so before, or is new and for the event's purpose. -/
theorem uses_step
    (hs : Registered names s)
    {event : Event K}
    (huses : (s.step event).Uses id p) :
    s.Uses id p ∨ (event.purpose? = some p ∧ s.ids.next ≤ id.number ∧
      id.number < (s.step event).ids.next) := by
  have hsame : s.All fun l => l.Uses id p → s.Uses id p := fun h l hl hid => ⟨h, l, hl, hid⟩
  have hold : ∀ {t : Session K}, (t.All fun l => l.Uses id p → s.Uses id p) → t.Uses id p →
      s.Uses id p := fun ht ⟨h, l, hl, hid⟩ => ht h l hl hid
  cases event with
  | make owner items edit => exact Or.inl (hold hsame huses)
  | copy h i => exact Or.inl (hold hsame huses)
  | start settings =>
      exact Or.inl (hold (hsame.share fun hid => absurd hid (Layout.not_uses_new settings)) huses)
  | ask h request =>
      cases hl : s.layout? h with
      | none =>
          have hasked : s.step (.ask h request) = s := by rw [step, Session.ask, hl]
          exact Or.inl (hold hsame (hasked ▸ huses))
      | some l =>
          have hasked : s.step (.ask h request) =
              { s.setLayout h (l.serve s.ids request).1 with
                ids := (l.serve s.ids request).2 } := by
            rw [step, Session.ask, hl]
          rw [hasked] at huses ⊢
          obtain ⟨other, m, hm, hid⟩ := huses
          have hm' : (s.setLayout h (l.serve s.ids request).1).layout? other = some m := hm
          rw [layout?_setLayout] at hm'
          split at hm'
          · cases hm'
            exact hid.of_serve.imp_left fun hid => ⟨h, l, hl, hid⟩
          · exact Or.inl ⟨other, m, hm', hid⟩
  | add h index edit =>
      refine Or.inl (hold (hsame.add fun l hl c _ hid => ⟨h, l, hl, ?_⟩) huses)
      unfold Layout.add at hid
      split at hid
      · exact hid
      · exact Layout.uses_install.1 hid
  | replace h i index edit =>
      exact Or.inl (hold (hsame.replace fun l c hl _ hid =>
        ⟨h, l, hl, Layout.uses_update.1 hid⟩) huses)
  | split h root tree =>
      refine Or.inl (hold (hsame.split fun l hl => ?_) huses)
      have hregistered : Layout.Registered names l := hs.layouts h l hl
      have hparts := hregistered.split_partition root tree
      exact ⟨fun hid => ⟨h, l, hl, hparts.of_uses (Or.inl hid)⟩,
        fun hid => ⟨h, l, hl, hparts.of_uses (Or.inr hid)⟩⟩
  | join target source =>
      refine Or.inl (hold (hsame.join (fun settings hid => absurd hid (Layout.not_uses_new settings))
        fun l other _ hl hother hid => ?_) huses)
      rcases hid.of_join with hid | hid
      · exact ⟨target, l, hl, hid⟩
      · exact ⟨source, other, hother, hid⟩

/-- Every name on record has been given out, and for one purpose only. -/
structure Sole (s : Session K) : Prop where
  eq : ∀ {id p q}, s.Uses id p → s.Uses id q → p = q
  below : ∀ {id p}, s.Uses id p → id.number < s.ids.next

theorem Sole.step
    (hsole : Sole s)
    (hs : Registered names s)
    (event : Event K) :
    Sole (s.step event) where
  eq := by
    intro id p q hp hq
    rcases uses_step hs hp with hp | ⟨hpurpose, hnew, _⟩
    · rcases uses_step hs hq with hq | ⟨_, hnew, _⟩
      · exact hsole.eq hp hq
      · exact absurd (hsole.below hp) (Nat.not_lt.2 hnew)
    · rcases uses_step hs hq with hq | ⟨hpurpose', _, _⟩
      · exact absurd (hsole.below hq) (Nat.not_lt.2 hnew)
      · exact Option.some.inj (hpurpose.symm.trans hpurpose')
  below := by
    intro id p hp
    rcases uses_step hs hp with hp | ⟨_, _, hbelow⟩
    · exact Nat.lt_of_lt_of_le (hsole.below hp) (next_le_step s event)
    · exact hbelow

/-- In all layouts of a session together, a name is on record for at most one purpose. -/
theorem sole_run
    (events : List (Event K)) :
    Sole ((empty : Session K).run events) := by
  induction events using List.reverseRecOn with
  | nil =>
      have hnone : ∀ id p, ¬ (empty : Session K).Uses id p := fun _ _ ⟨_, _, hl, _⟩ => nomatch hl
      exact ⟨fun hp => absurd hp (hnone _ _), fun hp => absurd hp (hnone _ _)⟩
  | append_singleton events event ih =>
      obtain ⟨names, hrun⟩ := registered_run events
      rw [run_append]
      exact ih.step hrun event

/-- What the empty session has and every event keeps that obeys a rule holds after all of them. -/
theorem run_induction
    {rule : Session K → Event K → Bool} {P : Names → Session K → Prop}
    (hempty : P (fun _ => none) empty)
    (hstep : ∀ {names s event}, Registered names s → Sole s → P names s → rule s event = true →
      ∃ later, Registered later (s.step event) ∧ P later (s.step event))
    {events : List (Event K)}
    (hheeds : (empty : Session K).heeds rule events = true) :
    ∃ names, P names ((empty : Session K).run events) := by
  have hrun : ∀ (events : List (Event K)) (s : Session K) (names : Names), Registered names s →
      Sole s → P names s → s.heeds rule events = true → ∃ later, P later (s.run events) := by
    intro events
    induction events with
    | nil =>
        exact fun s names _ _ hP _ => ⟨names, hP⟩
    | cons event events ih =>
        intro s names hs hsole hP hheeds
        obtain ⟨hobeys, hrest⟩ := Bool.and_eq_true_iff.1 hheeds
        obtain ⟨later, hnext, hkept⟩ := hstep hs hsole hP hobeys
        exact ih (s.step event) later hnext (hsole.step hs event) hkept hrest
  exact hrun events empty _ (settled_empty _) (sole_run []) hempty hheeds

end Session
end LinearLayout
