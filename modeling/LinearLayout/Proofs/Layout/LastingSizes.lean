import LinearLayout.Proofs.Layout.Backed

/-!
# Accepted sizes

An accepted change of an intrinsic size puts its constraints in force if it changes anything.  A
change that changes nothing is accepted as well, and then the size is in force only if it was so
before.  It was, unless its constraints have been refused, removed, edited or replaced; in sessions
without such events every size is in force at any time.
-/

namespace LinearLayout
namespace Layout

variable {K : Type} [Scalar K] {l : Layout K} {r : ManagedEntity K} {e : Entity} {axis : Axis}
  {change : IntrinsicChange K} {supply : IdSupply}

/-- The constraints in force that are on record for the size of an entity. -/
def sizesInForce (l : Layout K) (e : Entity) (axis : Axis) : List (Constraint K) :=
  (((l.entities.get? e).map fun r => r.sizeConstraints.get axis).getD []).filterMap l.constraint?

/--
The constraints in force on record for the size of an entity are, one to one and in order, those
that its intrinsic size asks for, up to equal numbers, and all of them are marked.
-/
def SizeInForce (l : Layout K) (e : Entity) (axis : Axis) : Prop :=
  ∃ (size : IntrinsicSize K) (a : AxisIntrinsic K), l.intrinsic? e = some size ∧
    a.SameNumbers (size.get axis) ∧
      List.Forall₂ (fun c make => c = make c.id ∧ c.id ∈ l.system.toList)
        (l.sizesInForce e axis) (a.demands e axis)

/-- A change makes a difference to the intrinsic size of an entity. -/
def Alters (l : Layout K) (e : Entity) (axis : Axis) (change : IntrinsicChange K) : Prop :=
  ∃ size, l.intrinsic? e = some size ∧
    ((size.get axis).change change).sameAs (size.get axis) = false

section Changes

/-- A size that is backed is in force. -/
theorem Backs.sizeInForce
    (h : l.Backs e axis r)
    (hr : l.entities.get? e = some r) :
    l.SizeInForce e axis := by
  obtain ⟨a, ha, hbacks⟩ := h
  refine ⟨r.intrinsic, a, ?_, ha, ?_⟩
  · rw [intrinsic?, hr, Option.map_some]
  · rw [sizesInForce, hr, Option.map_some, Option.getD_some]
    have hnames : ∀ make ∈ a.demands e axis, ∀ id, (make id).id = id := fun make hmake =>
      AxisIntrinsic.id_of_mem_demands hmake
    generalize r.sizeConstraints.get axis = ids at hbacks
    generalize a.demands e axis = makes at hbacks hnames
    induction hbacks with
    | nil => exact .nil
    | @cons id make ids makes hfirst _ ih =>
        have hid := hnames make List.mem_cons_self id
        rw [List.filterMap_cons_some hfirst.1]
        refine .cons ⟨?_, ?_⟩ (ih fun f hf => hnames f (List.mem_cons_of_mem make hf))
        · rw [hid]
        · rw [hid]
          exact hfirst.2

/-- Storing equal numbers makes no difference. -/
theorem sizeInForce_storeIntrinsic
    {a : AxisIntrinsic K}
    (hr : l.entities.get? e = some r)
    (hsame : a.sameAs (r.intrinsic.get axis) = true) :
    (l.storeIntrinsic e axis a).SizeInForce e axis ↔ l.SizeInForce e axis := by
  have hentry := get?_entities_storeIntrinsic hr axis a
  have hforce : (l.storeIntrinsic e axis a).sizesInForce e axis = l.sizesInForce e axis := by
    rw [sizesInForce, sizesInForce, hentry, hr]
    rfl
  have hbefore : l.intrinsic? e = some r.intrinsic := by
    rw [intrinsic?, hr, Option.map_some]
  have hafter : (l.storeIntrinsic e axis a).intrinsic? e = some (r.intrinsic.set axis a) := by
    rw [intrinsic?, hentry, Option.map_some]
  constructor
  · rintro ⟨size, b, hsize, hb, hmatch⟩
    cases hafter.symm.trans hsize
    rw [PerAxis.get_set_self] at hb
    exact ⟨_, b, hbefore, hb.trans _ _ _ (.rel _ _ hsame), hforce ▸ hmatch⟩
  · rintro ⟨size, b, hsize, hb, hmatch⟩
    cases hbefore.symm.trans hsize
    refine ⟨_, b, hafter, ?_, hforce.symm ▸ hmatch⟩
    rw [PerAxis.get_set_self]
    exact hb.trans _ _ _ (.symm _ _ (.rel _ _ hsame))

/-- An accepted change puts the size in force if it alters it, and otherwise leaves it as it was. -/
theorem sizeInForce_changeIntrinsic
    (hmanaged : l.isManaged e = true)
    (hok : (l.changeIntrinsic supply e axis change).1 = .ok ()) :
    (l.changeIntrinsic supply e axis change).2.1.SizeInForce e axis ↔
      l.Alters e axis change ∨ l.SizeInForce e axis := by
  obtain ⟨r, hr⟩ := isManaged_iff.1 hmanaged
  have hsize : l.intrinsic? e = some r.intrinsic := by
    rw [intrinsic?, hr, Option.map_some]
  have halters : l.Alters e axis change ↔
      ((r.intrinsic.get axis).change change).sameAs (r.intrinsic.get axis) = false := by
    simp only [Alters, hsize, Option.some.injEq, exists_eq_left']
  rw [halters]
  cases hsame : ((r.intrinsic.get axis).change change).sameAs (r.intrinsic.get axis) with
  | true =>
      rw [changeIntrinsic_of_get? hr, if_pos hsame, sizeInForce_storeIntrinsic hr hsame]
      simp
  | false =>
      obtain ⟨hresult, hresized⟩ := changeIntrinsic_of_not_sameAs hr hsame
      rw [hresult] at hok
      rw [hresized]
      generalize (r.intrinsic.get axis).change change = a at hok ⊢
      have hrecord : ∃ k, (l.resized e axis r a
          (a.constraints supply e axis).1).entities.get? e = some k :=
        ⟨_, (get?_entities_resized hr e).trans (if_pos rfl)⟩
      obtain ⟨k, hk⟩ := hrecord
      exact iff_of_true ((backs_resized hr hok hk).sizeInForce hk) (Or.inl rfl)

end Changes

end Layout

namespace Session

variable {K : Type} [Scalar K] {s : Session K} {names : Names} {h : Handle} {l : Layout K}
  {e : Entity} {axis : Axis} {change : IntrinsicChange K}

/--
An event refuses no constraint that is on record for a size, nor does it remove or edit one by its
name or put a copy of one in force by an edit, and it does not join two layouts that have an active
constraint in common.
-/
def sparesSizes (s : Session K) : Event K → Bool
  | .ask h request => (s.layout? h).all fun l => l.sparesSizes s.ids request
  | .replace h id index _ =>
    match s.layout? h, s.held[index]? with
    | some l, some c => !l.isSize id && !l.isSize c.id
    | _, _ => true
  | .split h root tree =>
    (s.layout? h).all fun l => (l.refusedBySplit root tree).all fun id => !l.isSize id
  | .join target source =>
    match s.layout? target, s.layout? source with
    | some l, some other =>
      target = source || (apart l other && (l.join other).1.all fun id => !other.isSize id)
    | _, _ => true
  | _ => true

theorem Registered.backed_step
    (hs : Registered names s)
    (hsole : Sole s)
    (hbacked : s.All Layout.Backed)
    {event : Event K}
    (hspares : s.sparesSizes event = true) :
    (s.step event).All Layout.Backed := by
  have hsoleIn : ∀ h l, s.layout? h = some l →
      ∀ id p q, l.Uses id p → l.Uses id q → p = q :=
    fun h l hl id p q hp hq => hsole.eq ⟨h, l, hl, hp⟩ ⟨h, l, hl, hq⟩
  cases event with
  | make owner items edit => exact hbacked
  | copy h id => exact hbacked
  | start settings => exact hbacked.share (Layout.backed_new settings)
  | ask h request =>
      refine hbacked.ask fun l hl => ?_
      rw [sparesSizes, hl, Option.all_some] at hspares
      exact (hbacked h l hl).serve (hs.layouts h l hl) (hsoleIn h l hl)
        (fun id p hp => hsole.below ⟨h, l, hl, hp⟩) hspares
  | add h index edit => exact hbacked.add fun l hl c _ => (hbacked h l hl).add _
  | replace h i index edit =>
      refine hbacked.replace fun l c hl hc => ?_
      simp only [sparesSizes, hl, hc, Bool.and_eq_true] at hspares
      have hne : ∀ {id j : ConstraintId} {e axis}, (!l.isSize j) = true →
          l.Uses id (.size e axis) → j ≠ id := by
        intro id j e axis hj hid heq
        rw [heq, Layout.isSize_of_uses hid] at hj
        cases hj
      refine (hbacked h l hl).of_spares (Layout.entities_update l i _) fun id e axis hid => ?_
      exact Layout.spares_update (hne hspares.1 hid).symm fun _ _ => hne hspares.2 hid
  | split h root tree =>
      refine hbacked.split fun l hl => ?_
      rw [sparesSizes, hl, Option.all_some] at hspares
      have hregistered : Layout.Registered names l := hs.layouts h l hl
      exact (hregistered.split_partition root tree).backed (hbacked h l hl) hspares
  | join target source =>
      refine hbacked.join Layout.backed_new fun l other hne hl hother => ?_
      simp only [sparesSizes, hl, hother, hne, decide_false, Bool.false_or,
        Bool.and_eq_true] at hspares
      have hunion := (hs.layouts source other hother).named.union (l := l) fun id hactive =>
        isActive_eq_false_of_apart hspares.1 hactive
      exact hunion.backed (hbacked target l hl) (hbacked source other hother)
        (hsoleIn source other hother) hspares.2

theorem backed_run
    {events : List (Event K)}
    (hspares : (empty : Session K).heeds sparesSizes events = true) :
    ((empty : Session K).run events).All Layout.Backed := by
  have hempty : (empty : Session K).All Layout.Backed := nofun
  have hrun := run_induction (P := fun _ s => s.All Layout.Backed) hempty
    (fun hs hsole hbacked hspares => by
      obtain ⟨later, _, hnext⟩ := hs.step _
      exact ⟨later, hnext, hs.backed_step hsole hbacked hspares⟩) hspares
  exact hrun.elim fun _ hbacked => hbacked

/--
After an accepted change the size of an entity is in force exactly if the change altered it or it
was in force before.  It is in force after every accepted change in a session that refuses no
constraint made from a size, in which nobody removes or edits such a constraint or has an edit put
one in place, and in which no layouts are joined that have an active constraint in common.
-/
theorem accepted_size_in_force
    (events : List (Event K))
    (hl : ((empty : Session K).run events).layout? h = some l)
    (hmanaged : l.isManaged e = true)
    (hok : (l.changeIntrinsic ((empty : Session K).run events).ids e axis change).1 = .ok ()) :
    ((l.changeIntrinsic ((empty : Session K).run events).ids e axis change).2.1.SizeInForce e axis ↔
      l.Alters e axis change ∨ l.SizeInForce e axis) ∧
      ((empty : Session K).heeds sparesSizes events = true →
        (l.changeIntrinsic ((empty : Session K).run events).ids e axis change).2.1.SizeInForce
          e axis) := by
  have hforce := Layout.sizeInForce_changeIntrinsic hmanaged hok
  refine ⟨hforce, fun hspares => hforce.2 (Or.inr ?_)⟩
  obtain ⟨r, hr⟩ := Layout.isManaged_iff.1 hmanaged
  exact (backed_run hspares h l hl e r hr axis).sizeInForce hr

/--
A size comes with a join, after a constraint beside it gave way to another, and is measured again.
-/
def measuredAgainEvents : List (Event Rat) :=
  [.start {}, .start {}, .ask ⟨1⟩ (.manage ⟨1⟩),
    .ask ⟨1⟩ (.changeIntrinsic ⟨1⟩ .horizontal (.size (some 10))),
    .ask ⟨1⟩ (.changeIntrinsic ⟨1⟩ .horizontal (.hugging .required)),
    .make ⟨1⟩ [⟨⟨⟨1⟩, .left⟩, .equal, none⟩] {}, .add ⟨1⟩ 0 {},
    .make ⟨1⟩ [⟨⟨⟨1⟩, .left⟩, .atLeast, none⟩] {}, .replace ⟨1⟩ ⟨5⟩ 1 {}, .join ⟨0⟩ ⟨1⟩]

theorem accepted_size_in_force_measuredAgain :
    ∃ l, ((empty : Session Rat).run measuredAgainEvents).layout? ⟨0⟩ = some l ∧
      l.isManaged ⟨1⟩ = true ∧
      (l.changeIntrinsic ((empty : Session Rat).run measuredAgainEvents).ids ⟨1⟩ .horizontal
        (.size (some 10))).1 = .ok () ∧
      (empty : Session Rat).heeds sparesSizes measuredAgainEvents = true ∧
      (l.changeIntrinsic ((empty : Session Rat).run measuredAgainEvents).ids ⟨1⟩ .horizontal
        (.size (some 10))).2.1.SizeInForce ⟨1⟩ .horizontal ∧
      (l.Alters ⟨1⟩ .horizontal (.size (some 10)) ∨ l.SizeInForce ⟨1⟩ .horizontal) := by
  have hstate : (((empty : Session Rat).run measuredAgainEvents).layout? ⟨0⟩).any (fun l =>
      l.isManaged ⟨1⟩ && (l.changeIntrinsic ((empty : Session Rat).run measuredAgainEvents).ids ⟨1⟩
        .horizontal (.size (some 10))).1.isOk) = true := by
    decide +kernel
  have hspares : (empty : Session Rat).heeds sparesSizes measuredAgainEvents = true := by
    decide +kernel
  obtain ⟨l, hl, htest⟩ := (Option.any_eq_true _ _).1 hstate
  obtain ⟨hmanaged, hok⟩ := Bool.and_eq_true_iff.1 htest
  cases hresult : (l.changeIntrinsic ((empty : Session Rat).run measuredAgainEvents).ids ⟨1⟩
      .horizontal (.size (some 10))).1 with
  | error cause =>
      rw [hresult] at hok
      cases hok
  | ok _ =>
      obtain ⟨hforce, hlasts⟩ := accepted_size_in_force measuredAgainEvents hl hmanaged hresult
      exact ⟨l, hl, hmanaged, hresult, hspares, hlasts hspares, hforce.1 (hlasts hspares)⟩

/-- A binding size is refused because of a pin, and then the pin is removed. -/
def refusedSizeEvents : List (Event Rat) :=
  [.start {}, .ask ⟨0⟩ (.manage ⟨1⟩),
    .ask ⟨0⟩ (.changeIntrinsic ⟨1⟩ .horizontal (.hugging .required)),
    .ask ⟨0⟩ (.changeIntrinsic ⟨1⟩ .horizontal (.resistance .required)),
    .ask ⟨0⟩ (.pin ⟨⟨1⟩, .width⟩ 10),
    .ask ⟨0⟩ (.changeIntrinsic ⟨1⟩ .horizontal (.size (some 20))),
    .ask ⟨0⟩ (.unpin ⟨⟨1⟩, .width⟩)]

/-- Measuring the same size again is accepted, but no constraint holds the width to it. -/
theorem not_sizeInForce_refusedSizeEvents :
    ∃ l, ((empty : Session Rat).run refusedSizeEvents).layout? ⟨0⟩ = some l ∧
      l.isManaged ⟨1⟩ = true ∧
      (l.changeIntrinsic ((empty : Session Rat).run refusedSizeEvents).ids ⟨1⟩ .horizontal
        (.size (some 20))).1 = .ok () ∧
      (l.changeIntrinsic ((empty : Session Rat).run refusedSizeEvents).ids ⟨1⟩ .horizontal
        (.size (some 20))).2.1.active = [] ∧
      (l.changeIntrinsic ((empty : Session Rat).run refusedSizeEvents).ids ⟨1⟩ .horizontal
        (.size (some 20))).2.1.value ⟨⟨1⟩, .width⟩ = 0 ∧
      ¬(l.changeIntrinsic ((empty : Session Rat).run refusedSizeEvents).ids ⟨1⟩ .horizontal
        (.size (some 20))).2.1.SizeInForce ⟨1⟩ .horizontal := by
  have hstate : (((empty : Session Rat).run refusedSizeEvents).layout? ⟨0⟩).any (fun l =>
      let o := l.changeIntrinsic ((empty : Session Rat).run refusedSizeEvents).ids ⟨1⟩ .horizontal
        (.size (some 20))
      l.isManaged ⟨1⟩ && o.1.isOk && o.2.1.active.isEmpty &&
        decide (o.2.1.value ⟨⟨1⟩, .width⟩ = 0) && (o.2.1.sizesInForce ⟨1⟩ .horizontal).isEmpty &&
        (o.2.1.intrinsic? ⟨1⟩).all fun size =>
          !((size.get .horizontal).demands ⟨1⟩ .horizontal).isEmpty) = true := by
    decide +kernel
  obtain ⟨l, hl, htest⟩ := (Option.any_eq_true _ _).1 hstate
  simp only [Bool.and_eq_true, decide_eq_true_eq, List.isEmpty_iff] at htest
  obtain ⟨⟨⟨⟨⟨hmanaged, hok⟩, hactive⟩, hvalue⟩, hnone⟩, hdemands⟩ := htest
  cases hresult : (l.changeIntrinsic ((empty : Session Rat).run refusedSizeEvents).ids ⟨1⟩
      .horizontal (.size (some 20))).1 with
  | error cause =>
      rw [hresult] at hok
      cases hok
  | ok _ =>
      refine ⟨l, hl, hmanaged, hresult, hactive, hvalue, ?_⟩
      rintro ⟨size, a, hsize, ha, hmatch⟩
      rw [hnone] at hmatch
      rw [hsize, Option.all_some, ← ha.eq, List.forall₂_nil_left_iff.1 hmatch] at hdemands
      cases hdemands

end Session
end LinearLayout
