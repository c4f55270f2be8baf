import Mathlib.Data.List.Forall2
import LinearLayout.Proofs.Layout.Purposes

/-!
# Sizes that are backed by constraints

An intrinsic size is backed if the names on record for it are, one to one and in order, those of the
constraints that it asks for, all of them in force and marked.  Only a few things can undo that: a
caller can remove or edit such a constraint by its name, and a solver can refuse one when a size
changes or moves to another layout.
-/

namespace LinearLayout

namespace AxisIntrinsic

variable {K : Type} [Scalar K] {a b : AxisIntrinsic K} {e f : Entity} {axis : Axis}
  {make : ConstraintId → Constraint K}

/-- The states agree as numbers; one may have come from the other by changes that change nothing. -/
def SameNumbers (a b : AxisIntrinsic K) : Prop :=
  Relation.EqvGen (fun a b => a.sameAs b = true) a b

/-- Where equal numbers are the same, so are equal states. -/
theorem SameNumbers.eq
    [LawfulBEq K]
    (h : a.SameNumbers b) :
    a = b := by
  have hpriority : ∀ p q : Priority K, p.sameAs q = true → p = q := by
    intro p q hpq
    cases p <;> cases q <;> first | rfl | cases hpq | exact congrArg _ (eq_of_beq hpq)
  have hsame : ∀ a b : AxisIntrinsic K, a.sameAs b = true → a = b := by
    rintro ⟨x, p, q⟩ ⟨y, p', q'⟩ hab
    simp only [sameAs, Bool.and_eq_true] at hab
    obtain ⟨⟨hsize, hp⟩, hq⟩ := hab
    have hsize : x = y := by
      cases x <;> cases y <;> first | rfl | cases hsize | exact congrArg _ (eq_of_beq hsize)
    rw [hsize, hpriority _ _ hp, hpriority _ _ hq]
  induction h with
  | rel a b hab => exact hsame a b hab
  | refl a => rfl
  | symm a b _ ih => exact ih.symm
  | trans a b c _ _ ih ih' => exact ih.trans ih'

theorem entities_of_mem_demands
    (hmake : make ∈ a.demands e axis)
    {id : ConstraintId} (hf : f ∈ (make id).entities) :
    f = e := by
  unfold demands at hmake
  split at hmake
  · cases hmake
  · obtain ⟨b, _, rfl⟩ := List.mem_map.1 hmake
    simpa [Constraint.entities, Constraint.withPriority, Constraint.toValue, Constraint.withOffset,
      Constraint.new, Item.entities] using hf

end AxisIntrinsic

/-- Constraints that get new names are those that were asked for, one by one. -/
theorem IdSupply.forall₂_assign
    {K : Type} [Scalar K] {fs : List (ConstraintId → Constraint K)}
    (hfs : ∀ f ∈ fs, ∀ id, (f id).id = id)
    (supply : IdSupply) :
    List.Forall₂ (fun c f => c = f c.id) (supply.assign fs).1 fs := by
  induction fs generalizing supply with
  | nil =>
      exact .nil
  | cons f fs ih =>
      refine .cons ?_ (ih (fun g hg => hfs g (List.mem_cons_of_mem f hg)) _)
      rw [hfs f List.mem_cons_self]

namespace Layout

variable {K : Type} [Scalar K] {l other m u : Layout K} {names : Names} {id i : ConstraintId}
  {c : Constraint K} {e f : Entity} {axis : Axis} {v : Variable} {supply : IdSupply}

section Spares

/-- A marked constraint in force is kept, and so is its mark. -/
def Spares (l m : Layout K) (id : ConstraintId) : Prop :=
  ∀ c, l.constraint? id = some c → id ∈ l.system.toList →
    m.constraint? id = some c ∧ id ∈ m.system.toList

theorem Spares.trans
    (h : Spares l m id)
    (hnext : Spares m u id) :
    Spares l u id :=
  fun c hc hid => hnext c (h c hc hid).1 (h c hc hid).2

theorem spares_congr
    (hconstraints : m.constraints = l.constraints)
    (hsystem : m.system = l.system) :
    Spares l m id := by
  intro c hc hid
  rw [constraint?, hconstraints, hsystem]
  exact ⟨hc, hid⟩

theorem spares_removeAll
    {ids : List ConstraintId}
    (h : id ∉ ids) :
    Spares l (l.removeAll ids) id := by
  intro c hc hid
  rw [constraint?, get?_constraints_removeAll, if_neg h, mem_system_removeAll]
  exact ⟨hc, hid, h⟩

theorem spares_without
    (h : id ≠ i) :
    Spares l (l.without i) id := by
  intro c hc hid
  rw [constraint?, constraints_without, OrderedMap.get?_erase, if_neg h, system_without]
  exact ⟨hc, hid⟩

theorem spares_enforced
    {keys : List EquationKey} {s : Solver K}
    (h : c.id ≠ id) :
    Spares l (l.enforced c keys s) id := by
  intro d hd hid
  rw [constraint?_enforced_of_ne keys s h]
  exact ⟨hd, hid⟩

theorem spares_markSystem
    (l : Layout K) (i : ConstraintId) :
    Spares l (l.markSystem i) id :=
  fun _ hc hid => ⟨hc, OrderedSet.mem_toList_insert.2 (Or.inl hid)⟩

theorem spares_install
    (h : c.id ≠ id) :
    Spares l (l.install c).2 id := by
  rcases install_cases l c with ⟨_, s, heq, _⟩ | ⟨keys, s, heq, _⟩
  · rw [heq]
    exact spares_congr rfl rfl
  · rw [heq]
    exact spares_enforced h

/-- What is active already is not added again. -/
theorem spares_add
    (l : Layout K) (c : Constraint K) :
    Spares l (l.add c).2 id := by
  unfold add
  split
  · exact spares_congr rfl rfl
  · next hnew =>
    by_cases h : c.id = id
    · intro d hd _
      rw [h, isActive_of_constraint? hd] at hnew
      exact absurd rfl hnew
    · exact spares_install h

theorem spares_update
    {edit : Constraint K → Constraint K}
    (h : id ≠ i)
    (hedit : ∀ c, l.constraint? i = some c → (edit c).id ≠ id) :
    Spares l (l.update i edit).2 id := by
  have hwithout : Spares l (l.without i) id := spares_without h
  rcases update_cases l i edit with ⟨_, heq⟩ | ⟨c, hc, ⟨keys, s, heq, _⟩ | ⟨cause, s, heq⟩⟩
  · rw [heq]
    exact spares_congr rfl rfl
  · rw [heq]
    exact hwithout.trans (spares_enforced (hedit c hc))
  · rw [heq]
    refine hwithout.trans fun c hc hid => ⟨hc, ?_⟩
    exact OrderedSet.mem_toList_erase.2 ⟨h, hid⟩

theorem spares_revalue
    {edit : Constraint K → Constraint K}
    (hnamed : Named names l)
    (hedit : Constraint.Revalues edit)
    (h : id ≠ i) :
    Spares l (l.update i edit).2 id :=
  spares_update h fun _ hc hid => h (hid.symm.trans (hnamed.id_of_revalues hedit hc))

theorem spares_pin
    (hnamed : Named names l)
    (hpin : l.pins.get? v ≠ some id)
    (hold : id.number < supply.next)
    (x : K) :
    Spares l (l.pin supply v x).2.1 id := by
  have hne : (⟨supply.next⟩ : ConstraintId) ≠ id := fun heq => by
    rw [← heq] at hold
    exact absurd hold (Nat.lt_irrefl _)
  have hinstalled : Spares l (l.install (.toValue ⟨supply.next⟩ v .equal x)).2 id :=
    spares_install hne
  rcases pin_steps l supply v x with heq | ⟨i, pins, hv, heq⟩ | ⟨_, heq | ⟨pins, heq⟩⟩
  · rw [heq]
    exact spares_congr rfl rfl
  · have hother : id ≠ i := fun hid => hpin (hid ▸ (pin?_eq_some_iff.1 hv).1)
    rw [heq]
    exact (spares_revalue hnamed (Constraint.revalues_withOffset x) hother).trans
      (spares_congr rfl rfl)
  · rw [heq]
    exact hinstalled
  · rw [heq]
    exact (hinstalled.trans (spares_markSystem _ _)).trans (spares_congr rfl rfl)

theorem spares_unpin
    (hpin : l.pins.get? v ≠ some id) :
    Spares l (l.unpin v) id := by
  unfold unpin
  cases hv : l.pins.get? v with
  | none => exact spares_congr rfl rfl
  | some i =>
      have hne : id ∉ [i] := fun hmem => hpin (List.mem_singleton.1 hmem ▸ hv)
      have herased : Spares l { l with pins := l.pins.erase v } id := spares_congr rfl rfl
      exact herased.trans (spares_removeAll hne)

theorem spares_removeExternal
    (l : Layout K) (e : Entity) :
    Spares l (l.removeExternal e).2 id := by
  intro c hc hid
  have hmarked : id ∉ (l.ownedBy e).filter fun id => !l.system.contains id := by
    intro hmem
    have hunmarked := (List.mem_filter.1 hmem).2
    rw [OrderedSet.contains_eq_true.2 hid] at hunmarked
    cases hunmarked
  rw [removeExternal_snd]
  exact spares_removeAll hmarked c hc hid

/-- An entity takes along only the constraints that speak of it. -/
theorem Registered.spares_release
    (h : Registered names l)
    (hc : ∀ c, l.constraint? id = some c → e ∉ c.entities) :
    Spares l (l.release e) id := by
  cases hr : l.entities.get? e with
  | none =>
      rw [release_of_get?_eq_none hr]
      exact spares_congr rfl rfl
  | some r =>
      rw [release_of_get? hr]
      intro d hd hid
      obtain ⟨a, ha, rfl⟩ := Option.map_eq_some_iff.1 hd
      have hforeign := hc _ hd
      have howner : a.constraint.owner ≠ e := fun heq =>
        hforeign (heq ▸ a.constraint.owner_mem_entities)
      have hkept : (l.stripped e r).constraints.get? id = some a :=
        (get?_constraints_stripped h.lists).2 ⟨ha, howner⟩
      have hmanaged : (l.stripped e r).unmanaged? a.constraint = none := by
        rw [unmanaged?_eq_none_iff]
        intro f hf
        obtain ⟨k, hk⟩ := isManaged_iff.1 (h.closed id a ha f hf)
        have hne : f ≠ e := fun heq => hforeign (heq ▸ hf)
        refine isManaged_iff.2 ⟨k, ?_⟩
        rw [entities_stripped, OrderedMap.get?_erase, if_neg hne, hk]
      have hmarked : id ∈ (l.stripped e r).system.toList := by
        refine mem_system_removeAll.2 ⟨hid, fun hmem => ?_⟩
        rw [h.lists e, mem_activeOf_iff] at hmem
        obtain ⟨b, hb, hbowner⟩ := hmem
        exact howner (Option.some.inj (ha.symm.trans hb) ▸ hbowner)
      have hstays : id ∉ ((l.stripped e r).constraints.filter fun _ a =>
          ((l.stripped e r).unmanaged? a.constraint).isSome).keys := by
        rw [mem_foreign_iff]
        rintro ⟨b, hb, hsome⟩
        exact hsome (Option.some.inj (hkept.symm.trans hb) ▸ hmanaged)
      exact spares_removeAll hstays _ (congrArg (Option.map _) hkept) hmarked

end Spares

section Changes

variable {cs : List (Constraint K)} {r : ManagedEntity K} {a : AxisIntrinsic K}

theorem spares_installSystem
    (h : ∀ c ∈ cs, c.id ≠ id) :
    Spares l (l.installSystem cs).2.2 id := by
  induction cs generalizing l with
  | nil =>
      exact spares_congr rfl rfl
  | cons c cs ih =>
      have hfirst : Spares l (l.install c).2 id := spares_install (h c List.mem_cons_self)
      have hrest : ∀ d ∈ cs, d.id ≠ id := fun d hd => h d (List.mem_cons_of_mem c hd)
      rcases hinstall : l.install c with ⟨cause | _, m⟩
      · rw [hinstall] at hfirst
        rw [installSystem_of_error hinstall]
        exact hfirst.trans (ih hrest)
      · rw [hinstall] at hfirst
        rw [installSystem_of_ok hinstall]
        exact (hfirst.trans (spares_markSystem _ _)).trans (ih hrest)

theorem spares_cleared
    (h : id ∉ r.sizeConstraints.get axis) :
    Spares l (l.cleared e axis r a) id := by
  have hemptied : Spares l ((l.storeIntrinsic e axis a).storeSizeConstraints e axis []) id :=
    spares_congr rfl rfl
  exact (hemptied.trans (spares_removeAll h)).trans (spares_congr rfl rfl)

/-- If no constraint is refused, all of them are in force and marked. -/
theorem installSystem_ok
    (hok : (l.installSystem cs).1 = .ok ())
    (hdistinct : (cs.map Constraint.id).Nodup) :
    (l.installSystem cs).2.1 = cs.map Constraint.id ∧
      ∀ c ∈ cs, (l.installSystem cs).2.2.constraint? c.id = some c ∧
        c.id ∈ (l.installSystem cs).2.2.system.toList := by
  induction cs generalizing l with
  | nil =>
      exact ⟨rfl, nofun⟩
  | cons c cs ih =>
      rw [List.map_cons, List.nodup_cons] at hdistinct
      rcases install_cases l c with ⟨cause, s, heq, _⟩ | ⟨keys, s, heq, _⟩
      · rw [installSystem_of_error heq] at hok
        cases hok
      · rw [installSystem_of_ok heq] at hok ⊢
        obtain ⟨hids, hrest⟩ := ih hok hdistinct.2
        refine ⟨congrArg (c.id :: ·) hids, fun d hd => ?_⟩
        rcases List.mem_cons.1 hd with rfl | hd
        · have hlater : ∀ x ∈ cs, x.id ≠ d.id := fun x hx hid =>
            hdistinct.1 (hid ▸ List.mem_map_of_mem hx)
          exact spares_installSystem hlater d (constraint?_enforced keys s rfl)
            (OrderedSet.mem_toList_insert.2 (Or.inr rfl))
        · exact hrest d hd

end Changes

section Backs

variable {r r' : ManagedEntity K}

/-- The names on record are those of the constraints that the size asks for, in force and marked. -/
def Backs (l : Layout K) (e : Entity) (axis : Axis) (r : ManagedEntity K) : Prop :=
  ∃ a : AxisIntrinsic K, a.SameNumbers (r.intrinsic.get axis) ∧
    List.Forall₂ (fun id make => l.constraint? id = some (make id) ∧ id ∈ l.system.toList)
      (r.sizeConstraints.get axis) (a.demands e axis)

/-- The intrinsic sizes of all managed entities are backed. -/
def Backed (l : Layout K) : Prop :=
  ∀ e r, l.entities.get? e = some r → ∀ axis, l.Backs e axis r

/-- What is on record of a size stays backed if the constraints about the entity are kept. -/
theorem Backs.of_kept
    (h : l.Backs e axis r)
    (hsize : r'.intrinsic.get axis = r.intrinsic.get axis)
    (hids : r'.sizeConstraints.get axis = r.sizeConstraints.get axis)
    (hspared : ∀ id ∈ r.sizeConstraints.get axis, ∀ c, (∀ f ∈ c.entities, f = e) →
      l.constraint? id = some c → id ∈ l.system.toList →
        m.constraint? id = some c ∧ id ∈ m.system.toList) :
    m.Backs e axis r' := by
  obtain ⟨a, ha, hbacks⟩ := h
  refine ⟨a, hsize ▸ ha, ?_⟩
  rw [hids]
  have hmakes : ∀ make ∈ a.demands e axis, ∀ id, ∀ f ∈ (make id).entities, f = e :=
    fun make hmake id f hf => AxisIntrinsic.entities_of_mem_demands hmake hf
  generalize r.sizeConstraints.get axis = ids at hbacks hspared
  generalize a.demands e axis = makes at hbacks hmakes
  induction hbacks with
  | nil => exact .nil
  | @cons id make ids makes hfirst _ ih =>
      refine .cons ?_ (ih (fun i hi => hspared i (List.mem_cons_of_mem id hi))
        fun f hf => hmakes f (List.mem_cons_of_mem make hf))
      exact hspared id List.mem_cons_self _ (hmakes make List.mem_cons_self id) hfirst.1 hfirst.2

/-- A layout whose entities were there before, with what they keep, stays backed. -/
theorem Backed.frame
    (h : Backed l)
    (hentities : ∀ e r', m.entities.get? e = some r' →
      ∃ r, l.entities.get? e = some r ∧ r'.kept = r.kept)
    (hspared : ∀ e axis id, m.isManaged e = true → l.Uses id (.size e axis) →
      ∀ c, (∀ f ∈ c.entities, f = e) → l.constraint? id = some c → id ∈ l.system.toList →
        m.constraint? id = some c ∧ id ∈ m.system.toList) :
    Backed m := by
  intro e r' hr' axis
  obtain ⟨r, hr, hkept⟩ := hentities e r' hr'
  exact (h e r hr axis).of_kept (congrArg (fun kept => kept.1.get axis) hkept)
    (congrArg (fun kept => kept.2.get axis) hkept) fun id hid =>
      hspared e axis id (isManaged_iff.2 ⟨r', hr'⟩) ⟨r, hr, hid⟩

/-- Only the constraints that are on record for sizes matter as long as the entities stay. -/
theorem Backed.of_spares
    (h : Backed l)
    (hentities : m.entities = l.entities)
    (hspares : ∀ id e axis, l.Uses id (.size e axis) → Spares l m id) :
    Backed m := by
  refine h.frame (fun e r hr => ⟨r, hentities ▸ hr, rfl⟩) fun e axis id _ hid c _ => ?_
  exact hspares id e axis hid c

theorem backed_new
    (settings : Settings K) :
    Backed (new settings) :=
  fun _ _ hr => nomatch hr

end Backs

section Serve

variable {change : IntrinsicChange K}

/-- A name is on record for the size of an entity. -/
def isSize (l : Layout K) (id : ConstraintId) : Bool :=
  l.entities.values.any fun r => r.sizeConstraints.toList.flatten.contains id

theorem isSize_of_uses
    (h : l.Uses id (.size e axis)) :
    l.isSize id = true := by
  obtain ⟨r, hr, hid⟩ := h
  refine List.any_eq_true.2 ⟨r, List.mem_map.2 ⟨(e, r), ?_, rfl⟩, ?_⟩
  · exact OrderedMap.get?_eq_some_iff.1 hr
  · exact List.contains_iff_mem.2 (PerAxis.mem_flatten_toList.2 ⟨axis, hid⟩)

/--
A request neither removes nor edits a constraint that is on record for a size, and it does not
change a size so that a constraint is refused.
-/
def sparesSizes (l : Layout K) (supply : IdSupply) : Request K → Bool
  | .remove id | .update id _ => !l.isSize id
  | .changeIntrinsic e axis change => (l.changeIntrinsic supply e axis change).1.isOk
  | _ => true

theorem Backed.manage
    (h : Backed l)
    (e : Entity) :
    Backed (l.manage e) := by
  unfold Layout.manage
  split
  · exact h
  · intro f r hr axis
    rw [entities_adopt, OrderedMap.get?_insert] at hr
    split at hr
    · cases hr
      cases axis <;> exact ⟨_, .refl _, .nil⟩
    · exact (h f r hr axis).of_kept rfl rfl fun id _ c _ hc hid => ⟨hc, hid⟩

theorem Backed.release
    (h : Backed l)
    (hregistered : Registered names l)
    (e : Entity) :
    Backed (l.release e) := by
  refine h.frame (fun f r hr => ?_) fun f axis id hf hid c hc => ?_
  · rw [get?_entities_release] at hr
    split at hr
    · cases hr
    · exact ⟨r, hr, rfl⟩
  · intro hactive
    refine hregistered.spares_release (fun d hd he => ?_) c hactive
    obtain rfl : c = d := Option.some.inj (hactive.symm.trans hd)
    obtain ⟨r, hr⟩ := isManaged_iff.1 hf
    rw [get?_entities_release, if_pos (hc e he).symm] at hr
    cases hr

/-- A change that changes nothing leaves a size as backed as it was. -/
theorem Backed.storeIntrinsic
    {a : AxisIntrinsic K}
    (h : Backed l)
    (hr : l.entities.get? e = some r)
    (hsame : a.sameAs (r.intrinsic.get axis) = true) :
    Backed (l.storeIntrinsic e axis a) := by
  intro f k hk other
  by_cases hf : f = e
  · subst hf
    rw [get?_entities_storeIntrinsic hr, Option.some.injEq] at hk
    subst hk
    obtain ⟨b, hb, hbacks⟩ := h f r hr other
    refine ⟨b, ?_, hbacks⟩
    by_cases hother : other = axis
    · subst hother
      rw [PerAxis.get_set_self]
      exact hb.trans _ _ _ (.symm _ _ (.rel _ _ hsame))
    · rwa [PerAxis.get_set_of_ne _ _ hother]
  · rw [Layout.storeIntrinsic, OrderedMap.get?_modify, if_neg hf] at hk
    exact h f k hk other

/-- The layout with the constraints made from a new size, as far as they are not refused. -/
def resized (l : Layout K) (e : Entity) (axis : Axis) (r : ManagedEntity K) (a : AxisIntrinsic K)
    (cs : List (Constraint K)) : Layout K :=
  ((l.cleared e axis r a).installSystem cs).2.2.storeSizeConstraints e axis
    ((l.cleared e axis r a).installSystem cs).2.1

section Resized

variable {a : AxisIntrinsic K} {cs : List (Constraint K)}

theorem get?_entities_resized
    (hr : l.entities.get? e = some r) (f : Entity) :
    (l.resized e axis r a cs).entities.get? f =
      if f = e then
        some ⟨r.boxKeys, r.intrinsic.set axis a, (r.sizeConstraints.set axis []).set axis
          ((l.cleared e axis r a).installSystem cs).2.1⟩
      else l.entities.get? f := by
  rw [resized, storeSizeConstraints, OrderedMap.get?_modify, entities_installSystem]
  by_cases hf : f = e
  · rw [if_pos hf, if_pos hf, get?_entities_cleared hr]
    rfl
  · have hcleared : (l.cleared e axis r a).entities =
        ((l.storeIntrinsic e axis a).storeSizeConstraints e axis []).entities := entities_removeAll
    rw [if_neg hf, if_neg hf, hcleared, storeSizeConstraints, OrderedMap.get?_modify, if_neg hf,
      Layout.storeIntrinsic, OrderedMap.get?_modify, if_neg hf]

/-- If none of its constraints is refused, the new size is backed. -/
theorem backs_resized
    (hr : l.entities.get? e = some r)
    (hok : ((l.cleared e axis r a).installSystem (a.constraints supply e axis).1).1 = .ok ())
    {k : ManagedEntity K}
    (hk : (l.resized e axis r a (a.constraints supply e axis).1).entities.get? e = some k) :
    (l.resized e axis r a (a.constraints supply e axis).1).Backs e axis k := by
  have hnames : ∀ make ∈ a.demands e axis, ∀ id, (make id).id = id := fun make hmake =>
    AxisIntrinsic.id_of_mem_demands hmake
  have hnone : Names.Below (fun _ => none) supply.next := nofun
  obtain ⟨_, hissues, _⟩ := Names.exists_issues hnone hnames
  obtain ⟨hids, hinstalled⟩ := installSystem_ok hok hissues.distinct
  rw [get?_entities_resized hr, if_pos rfl, Option.some.injEq] at hk
  subst hk
  refine ⟨a, ?_, ?_⟩
  · rw [PerAxis.get_set_self]
    exact .refl _
  · rw [PerAxis.get_set_self, hids, List.forall₂_map_left_iff]
    have hmade := (List.forall₂_and_left _ _).2
      ⟨hinstalled, IdSupply.forall₂_assign hnames supply⟩
    exact hmade.imp fun c make ⟨⟨hc, hid⟩, hmake⟩ => ⟨hmake ▸ hc, hid⟩

end Resized

theorem changeIntrinsic_of_not_sameAs
    (hr : l.entities.get? e = some r)
    (hchanged : ((r.intrinsic.get axis).change change).sameAs (r.intrinsic.get axis) = false) :
    (l.changeIntrinsic supply e axis change).1 =
        ((l.cleared e axis r ((r.intrinsic.get axis).change change)).installSystem
          (((r.intrinsic.get axis).change change).constraints supply e axis).1).1 ∧
      (l.changeIntrinsic supply e axis change).2.1 =
        l.resized e axis r ((r.intrinsic.get axis).change change)
          (((r.intrinsic.get axis).change change).constraints supply e axis).1 := by
  rw [changeIntrinsic_of_get? hr, if_neg (Bool.eq_false_iff.1 hchanged)]
  exact ⟨rfl, rfl⟩

/-- An accepted change of a size leaves the other sizes backed and backs the changed one. -/
theorem Backed.changeIntrinsic
    (h : Backed l)
    (hsole : ∀ id p q, l.Uses id p → l.Uses id q → p = q)
    (hbelow : ∀ id p, l.Uses id p → id.number < supply.next)
    (hok : (l.changeIntrinsic supply e axis change).1 = .ok ()) :
    Backed (l.changeIntrinsic supply e axis change).2.1 := by
  cases hr : l.entities.get? e with
  | none => rwa [changeIntrinsic_of_get?_eq_none hr]
  | some r =>
      cases hsame : ((r.intrinsic.get axis).change change).sameAs (r.intrinsic.get axis) with
      | true =>
          rw [changeIntrinsic_of_get? hr, if_pos hsame]
          exact h.storeIntrinsic hr hsame
      | false =>
          obtain ⟨hresult, hresized⟩ := changeIntrinsic_of_not_sameAs hr hsame
          rw [hresult] at hok
          rw [hresized]
          generalize (r.intrinsic.get axis).change change = a at hok ⊢
          -- names of other sizes are neither taken off the record nor given out again
          have hspares : ∀ f other id, (f ≠ e ∨ other ≠ axis) → l.Uses id (.size f other) →
              Spares l (l.resized e axis r a (a.constraints supply e axis).1) id := by
            intro f other id hne hid
            have hold : id ∉ r.sizeConstraints.get axis := fun hmem => by
              have howner : l.Uses id (.size e axis) := ⟨r, hr, hmem⟩
              cases hsole id _ _ hid howner
              exact hne.elim (· rfl) (· rfl)
            have hnew : ∀ c ∈ (a.constraints supply e axis).1, c.id ≠ id := fun c hc hcid => by
              have hfresh := (IdSupply.number_of_mem_assign
                (fun f hf => AxisIntrinsic.id_of_mem_demands hf) hc).1
              rw [hcid] at hfresh
              exact absurd (hbelow id _ hid) (Nat.not_lt.2 hfresh)
            exact ((spares_cleared hold).trans (spares_installSystem hnew)).trans
              (spares_congr rfl rfl)
          intro f k hk other
          have hentry := hk
          rw [get?_entities_resized hr] at hentry
          by_cases hf : f = e
          · subst hf
            by_cases hother : other = axis
            · subst hother
              exact backs_resized hr hok hk
            · rw [if_pos rfl, Option.some.injEq] at hentry
              subst hentry
              refine (h f r hr other).of_kept (PerAxis.get_set_of_ne _ _ hother) ?_
                fun id hid c _ => hspares f other id (Or.inr hother) ⟨r, hr, hid⟩ c
              rw [PerAxis.get_set_of_ne _ _ hother, PerAxis.get_set_of_ne _ _ hother]
          · rw [if_neg hf] at hentry
            exact (h f k hentry other).of_kept rfl rfl fun id hid c _ =>
              hspares f other id (Or.inl hf) ⟨k, hentry, hid⟩ c

theorem Backed.add
    (h : Backed l)
    (c : Constraint K) :
    Backed (l.add c).2 := by
  refine h.of_spares ?_ fun id e axis _ => spares_add l c
  unfold Layout.add
  split
  · rfl
  · exact entities_install l c

/-- A request that spares the sizes leaves all of them backed. -/
theorem Backed.serve
    (h : Backed l)
    (hregistered : Registered names l)
    (hsole : ∀ id p q, l.Uses id p → l.Uses id q → p = q)
    (hbelow : ∀ id p, l.Uses id p → id.number < supply.next)
    {request : Request K}
    (hspares : l.sparesSizes supply request = true) :
    Backed (l.serve supply request).1 := by
  have hnamed : ∀ {i id : ConstraintId} {e axis}, (!l.isSize i) = true →
      l.Uses id (.size e axis) → id ≠ i := by
    intro i id e axis hi hid heq
    rw [← heq, isSize_of_uses hid] at hi
    cases hi
  have hpin : ∀ v id e axis, l.Uses id (.size e axis) → l.pins.get? v ≠ some id := by
    intro v id e axis hid hv
    cases hsole id (.value v) _ hv hid
  cases request with
  | manage e => exact h.manage e
  | release e => exact h.release hregistered e
  | remove i =>
      refine h.of_spares entities_remove fun id e axis hid => ?_
      have hne : id ∉ [i] := fun hmem => hnamed hspares hid (List.mem_singleton.1 hmem)
      exact spares_removeAll hne
  | update i edit =>
      exact h.of_spares (entities_update l i edit) fun id e axis hid =>
        spares_revalue hregistered.named (Constraint.revalues_edit edit) (hnamed hspares hid)
  | pin v x =>
      exact h.of_spares (entities_pin l supply v x) fun id e axis hid =>
        spares_pin hregistered.named (hpin v id e axis hid) (hbelow id _ hid) x
  | unpin v =>
      refine h.of_spares ?_ fun id e axis hid => spares_unpin (hpin v id e axis hid)
      show (l.unpin v).entities = l.entities
      unfold Layout.unpin
      split
      · rfl
      · exact entities_remove
  | changeIntrinsic e axis change =>
      have hok : (l.changeIntrinsic supply e axis change).1.isOk = true := hspares
      cases hresult : (l.changeIntrinsic supply e axis change).1 with
      | error cause =>
          rw [hresult] at hok
          cases hok
      | ok _ => exact h.changeIntrinsic hsole hbelow hresult
  | removeExternal e =>
      refine h.of_spares ?_ fun id f axis _ => spares_removeExternal l e
      show (l.removeExternal e).2.entities = l.entities
      rw [removeExternal_snd]
      exact entities_removeAll
  | needsSize e axis =>
      show Backed (l.needsSize e axis).2
      unfold Layout.needsSize
      split
      · exact h.of_spares rfl fun _ _ _ _ => spares_congr rfl rfl
      · exact h

end Serve

section Moves

variable {inside : Entity → Prop} {refused : List ConstraintId}

/-- The sizes are backed on both sides of a split that does not refuse what backs them. -/
theorem Partition.backed
    {rest part : Layout K}
    (hparts : Partition l inside refused rest part)
    (h : Backed l)
    (hrefused : (refused.all fun id => !l.isSize id) = true) :
    Backed rest ∧ Backed part := by
  constructor
  · refine h.frame (fun e r hr => ?_) fun e axis id he hid c hc hactive hmarked => ?_
    · have houtside := ((hparts.managed_rest e).1 (isManaged_iff.2 ⟨r, hr⟩)).2
      have hkept := hparts.sizes_rest e houtside
      rw [hr, Option.map_some] at hkept
      obtain ⟨k, hk, heq⟩ := Option.map_eq_some_iff.1 hkept.symm
      exact ⟨k, hk, heq.symm⟩
    · have houtside := ((hparts.managed_rest e).1 he).2
      have hstays : rest.constraint? id = some c :=
        (hparts.constraints_rest id c).2 ⟨hactive, fun f hf => hc f hf ▸ houtside⟩
      exact ⟨hstays, (hparts.marks_rest id).2 ⟨hmarked, fun _ => isActive_of_constraint? hstays⟩⟩
  · refine h.frame (fun e r hr => ?_) fun e axis id he hid c hc hactive hmarked => ?_
    · have hinside := ((hparts.managed_part e).1 (isManaged_iff.2 ⟨r, hr⟩)).2
      have hkept := hparts.sizes_part e hinside
      rw [hr, Option.map_some] at hkept
      obtain ⟨k, hk, heq⟩ := Option.map_eq_some_iff.1 hkept.symm
      exact ⟨k, hk, heq.symm⟩
    · have hinside := ((hparts.managed_part e).1 he).2
      have hunlisted : id ∉ refused := fun hmem => by
        have hspared := List.all_eq_true.1 hrefused id hmem
        rw [isSize_of_uses hid] at hspared
        cases hspared
      have hmoves : part.constraint? id = some c :=
        (hparts.constraints_part id c).2 ⟨hactive, fun f hf => hc f hf ▸ hinside, hunlisted⟩
      exact ⟨hmoves, (hparts.marks_part id).2 ⟨hmarked, isActive_of_constraint? hmoves⟩⟩

/-- The sizes are backed after a join that does not refuse what backs them. -/
theorem Union.backed
    {joined : Layout K}
    (hunion : Union l other refused joined)
    (h : Backed l)
    (hother : Backed other)
    (hsole : ∀ id p q, other.Uses id p → other.Uses id q → p = q)
    (hrefused : (refused.all fun id => !other.isSize id) = true) :
    Backed joined := by
  intro e r hr axis
  have hkept := hunion.sizes e
  rw [hr, Option.map_some] at hkept
  by_cases he : l.isManaged e = true
  · rw [if_pos he] at hkept
    obtain ⟨k, hk, heq⟩ := Option.map_eq_some_iff.1 hkept.symm
    refine (h e k hk axis).of_kept (congrArg (fun kept => kept.1.get axis) heq.symm)
      (congrArg (fun kept => kept.2.get axis) heq.symm) fun id _ c _ hactive hmarked => ?_
    obtain ⟨hstays, hmark⟩ := hunion.kept id c hactive
    exact ⟨hstays, hmark.2 hmarked⟩
  · rw [if_neg he] at hkept
    obtain ⟨k, hk, heq⟩ := Option.map_eq_some_iff.1 hkept.symm
    refine (hother e k hk axis).of_kept (congrArg (fun kept => kept.1.get axis) heq.symm)
      (congrArg (fun kept => kept.2.get axis) heq.symm) fun id hid c _ hactive hmarked => ?_
    have huses : other.Uses id (.size e axis) := ⟨k, hk, hid⟩
    have hneeded : ¬l.Discards other id := by
      rintro (⟨f, j, axis', hf, hj, hmem⟩ | ⟨v, _, hv⟩)
      · have hsame : other.Uses id (.size f axis') := ⟨j, hj, hmem⟩
        cases hsole id _ _ huses hsame
        exact he hf
      · have hsame : other.Uses id (.value v) := hv
        cases hsole id _ _ huses hsame
    have hunlisted : id ∉ refused := fun hmem => by
      have hspared := List.all_eq_true.1 hrefused id hmem
      rw [isSize_of_uses huses] at hspared
      cases hspared
    rcases hunion.accounted id c hactive with
      ⟨_, _, hmoves, hmark⟩ | ⟨_, hlisted, _⟩ | ⟨hdiscarded, _⟩
    · exact ⟨hmoves, hmark.2 (Or.inr hmarked)⟩
    · exact absurd hlisted hunlisted
    · exact absurd hdiscarded hneeded

end Moves

end Layout
end LinearLayout
