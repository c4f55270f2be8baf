import LinearLayout.Proofs.Layout.Intact

/-!
# What a pin is once it has been accepted

A pin that is accepted is one active constraint that says the value of the variable and goes when
the variable is unpinned.  A new pin is required and marked.  An existing one is only moved, so it
is required and marked if it was so before; that holds in all sessions in which nobody puts a copy
of a pin in force or gives a pin another priority.
-/

namespace LinearLayout
namespace Layout

variable {K : Type} [Scalar K] {l : Layout K} {names : Names} {id : ConstraintId}
  {c : Constraint K} {e : Entity} {v : Variable} {x : K} {supply : IdSupply}

section Holds

/-- A variable has a pin: one active constraint that says its value and goes when it is unpinned. -/
structure Holds (l : Layout K) (v : Variable) (x : K) (id : ConstraintId) (c : Constraint K) :
    Prop where
  pin : l.pin? v = some id
  active : l.constraint? id = some c
  name : c.id = id
  owner : c.owner = v.entity
  items : c.items = [⟨v, .equal, none⟩]
  offset : c.offset = x
  /-- Removing what callers have added spares exactly the marked pin. -/
  external : (l.removeExternal v.entity).2.constraint? id = some c ↔ id ∈ l.system.toList
  unpinned : (l.unpin v).pin? v = none ∧ (l.unpin v).isActive id = false

/-- The pin of a variable is required and marked, so that only unpinning removes it. -/
def InForce (l : Layout K) (v : Variable) (x : K) : Prop :=
  ∃ id c, Holds l v x id c ∧ c.strength = .required ∧ id ∈ l.system.toList ∧
    (l.removeExternal v.entity).2.constraint? id = some c

theorem Lists.constraint?_removeExternal
    (h : Lists l e)
    (hc : l.constraint? id = some c)
    (howner : c.owner = e) :
    (l.removeExternal e).2.constraint? id = some c ↔ id ∈ l.system.toList := by
  obtain ⟨a, ha, rfl⟩ := Option.map_eq_some_iff.1 hc
  have howned : id ∈ l.ownedBy e := h ▸ mem_activeOf_iff.2 ⟨a, ha, howner⟩
  have hspared : id ∉ (l.ownedBy e).filter (fun id => !l.system.contains id) ↔
      id ∈ l.system.toList := by
    rw [List.mem_filter, ← OrderedSet.contains_eq_true]
    simp [howned]
  rw [removeExternal_snd, ← hspared, constraint?, get?_constraints_removeAll, ha]
  split
  · next hmem =>
    refine iff_of_false (fun hnone => ?_) (not_not_intro hmem)
    cases hnone
  · next hmem => exact iff_of_true rfl hmem

theorem unpin_of_pin
    (hpin : l.pin? v = some id) :
    (l.unpin v).pin? v = none ∧ (l.unpin v).isActive id = false := by
  have hv := (pin?_eq_some_iff.1 hpin).1
  have hunpin : l.unpin v = ({ l with pins := l.pins.erase v }.remove id).2 := by
    rw [unpin, hv]
  rw [hunpin]
  constructor
  · rw [pin?_eq_none_iff]
    intro j hj
    rw [pins_remove, OrderedMap.get?_erase, if_pos rfl] at hj
    cases hj
  · rw [isActive, OrderedMap.contains, constraints_remove, OrderedMap.get?_erase, if_pos rfl]
    rfl

/-- What the name of a pin stands for settles all but the numbers of its constraint. -/
theorem Registered.holds
    (h : Registered names l)
    (hpin : l.pin? v = some id)
    (hc : l.constraint? id = some c) :
    Holds l v c.offset id c := by
  obtain ⟨a, ha, rfl⟩ := Option.map_eq_some_iff.1 hc
  have hname := (h.pinned v id (pin?_eq_some_iff.1 hpin).1).2
  have hblueprint : a.constraint.blueprint = .pin v := h.named.eq_of_get? ha hname
  have howner : a.constraint.owner = v.entity := congrArg Blueprint.owner hblueprint
  exact ⟨hpin, hc, (h.named id a ha).1, howner, congrArg Blueprint.items hblueprint, rfl,
    (h.lists v.entity).constraint?_removeExternal hc howner, unpin_of_pin hpin⟩

theorem Holds.inForce_iff
    (h : Holds l v x id c) :
    InForce l v x ↔ c.strength = .required ∧ id ∈ l.system.toList := by
  constructor
  · rintro ⟨j, d, hd, hrequired, hmarked, _⟩
    obtain rfl : j = id := Option.some.inj (hd.pin.symm.trans h.pin)
    obtain rfl : d = c := Option.some.inj (hd.active.symm.trans h.active)
    exact ⟨hrequired, hmarked⟩
  · exact fun ⟨hrequired, hmarked⟩ => ⟨id, c, h, hrequired, hmarked, h.external.2 hmarked⟩

end Holds

section Accepted

/-- An accepted pin is the old one, moved and no more, or a new one. -/
theorem pin_cases
    (hmanaged : l.isManaged v.entity = true)
    (hok : (l.pin supply v x).1 = .ok ()) :
    (∃ i c keys s, l.pin? v = some i ∧ l.constraint? i = some c ∧
      (l.pin supply v x).2.1 = (l.without i).enforced (c.withOffset x) keys s) ∨
      (l.pin? v = none ∧ ∃ keys s, (l.pin supply v x).2.1 =
        { (l.enforced (.toValue ⟨supply.next⟩ v .equal x) keys s).markSystem ⟨supply.next⟩ with
          pins := l.pins.insert v ⟨supply.next⟩ }) := by
  unfold Layout.pin at hok ⊢
  rw [if_pos hmanaged] at hok ⊢
  cases hpin : l.pin? v with
  | some i =>
      rw [hpin] at hok
      refine Or.inl ⟨i, ?_⟩
      dsimp only at hok ⊢
      unfold movePin at hok ⊢
      rcases update_cases l i fun c => c.withOffset x with
        ⟨_, heq⟩ | ⟨c, hc, ⟨keys, s, heq, _⟩ | ⟨cause, s, heq⟩⟩
      · rw [heq] at hok
        cases hok
      · rw [heq]
        exact ⟨c, keys, s, rfl, hc, rfl⟩
      · rw [heq] at hok
        cases hok
  | none =>
      rw [hpin] at hok
      refine Or.inr ⟨rfl, ?_⟩
      dsimp only [IdSupply.take] at hok ⊢
      unfold newPin at hok ⊢
      rcases install_cases l (.toValue ⟨supply.next⟩ v .equal x) with
        ⟨cause, s, heq, _⟩ | ⟨keys, s, heq, _⟩
      · rw [heq] at hok
        cases hok
      · rw [heq]
        exact ⟨keys, s, rfl⟩

theorem Registered.pin_holds
    (h : Registered names l)
    (hbelow : names.Below supply.next)
    (hmanaged : l.isManaged v.entity = true)
    (hok : (l.pin supply v x).1 = .ok ()) :
    ∃ id c, Holds (l.pin supply v x).2.1 v x id c ∧
      (c.strength = .required ∧ id ∈ (l.pin supply v x).2.1.system.toList ↔
        ∀ i, l.pin? v = some i → Intact l i) := by
  obtain ⟨later, _, _, hpinned⟩ := h.pin hbelow v x
  rcases pin_cases hmanaged hok with ⟨i, c, keys, s, hpin, hc, heq⟩ | ⟨hnone, keys, s, heq⟩
  · rw [heq] at hpinned ⊢
    obtain ⟨a, ha, rfl⟩ := Option.map_eq_some_iff.1 hc
    have hmoved := constraint?_enforced (l := l.without i)
      (c := a.constraint.withOffset x) keys s (h.named i a ha).1
    have hactive := isActive_of_constraint? hmoved
    have hentry : (l.without i).pins.get? v = some i := by
      rw [pins_without]
      exact (pin?_eq_some_iff.1 hpin).1
    have hsystem : (l.without i).system = l.system := system_without
    refine ⟨i, _, Registered.holds hpinned (pin?_eq_some_iff.2 ⟨hentry, hactive⟩) hmoved, ?_⟩
    show a.constraint.strength = .required ∧ i ∈ (l.without i).system.toList ↔ _
    rw [hsystem]
    constructor
    · intro hlasts j hj d hd
      obtain rfl : i = j := Option.some.inj (hpin.symm.trans hj)
      obtain rfl : a.constraint = d := Option.some.inj (hc.symm.trans hd)
      exact hlasts
    · exact fun hintact => hintact i hpin _ hc
  · rw [heq] at hpinned ⊢
    have hnew := constraint?_enforced (l := l)
      (c := .toValue ⟨supply.next⟩ v .equal x) keys s rfl
    have hactive : (l.enforced (.toValue ⟨supply.next⟩ v .equal x) keys s).isActive
        ⟨supply.next⟩ = true := isActive_enforced_self
    have hentry : (l.pins.insert v ⟨supply.next⟩).get? v = some ⟨supply.next⟩ := by
      rw [OrderedMap.get?_insert, if_pos rfl]
    refine ⟨⟨supply.next⟩, _,
      Registered.holds hpinned (pin?_eq_some_iff.2 ⟨hentry, hactive⟩) hnew, ?_⟩
    refine iff_of_true ⟨rfl, OrderedSet.mem_toList_insert.2 (Or.inr rfl)⟩ fun i hi => ?_
    rw [hnone] at hi
    cases hi

end Accepted

end Layout

namespace Session

variable {K : Type} [Scalar K] {h : Handle} {l : Layout K} {v : Variable} {x : K}

/--
An accepted pin is one active constraint that says the value of the variable and goes when it is
unpinned.  It is required and marked exactly if the active pin before it was, if there was one; and
that is so in every session in which no copy of a pin is put in force and no pin gets another
priority.
-/
theorem accepted_pin_lasts
    (events : List (Event K))
    (hl : ((empty : Session K).run events).layout? h = some l)
    (hmanaged : l.isManaged v.entity = true)
    (hok : (l.pin ((empty : Session K).run events).ids v x).1 = .ok ()) :
    (∃ id c, Layout.Holds (l.pin ((empty : Session K).run events).ids v x).2.1 v x id c) ∧
      (Layout.InForce (l.pin ((empty : Session K).run events).ids v x).2.1 v x ↔
        ∀ id, l.pin? v = some id → l.Intact id) ∧
      ((empty : Session K).leavesPins events = true →
        Layout.InForce (l.pin ((empty : Session K).run events).ids v x).2.1 v x) := by
  obtain ⟨names, hrun⟩ := registered_run events
  have hregistered : Layout.Registered names l := hrun.layouts h l hl
  obtain ⟨id, c, hholds, hlasts⟩ := hregistered.pin_holds hrun.below hmanaged hok
  have hforce := hholds.inForce_iff.trans hlasts
  refine ⟨⟨id, c, hholds⟩, hforce, fun hleaves => hforce.2 fun i hi => ?_⟩
  have hentry := (Layout.pin?_eq_some_iff.1 hi).1
  exact pinsIntact_run hleaves i v ⟨h, l, hl, hentry⟩ h l hl

/-- A pin comes with a join, after a constraint beside it gave way to another, and is moved. -/
def joinedPinEvents : List (Event Rat) :=
  [.start {}, .start {}, .ask ⟨1⟩ (.manage ⟨1⟩), .ask ⟨1⟩ (.pin ⟨⟨1⟩, .left⟩ 5),
    .ask ⟨1⟩ (.update ⟨1⟩ { offset := some 6 }),
    .make ⟨1⟩ [⟨⟨⟨1⟩, .right⟩, .atLeast, none⟩] {}, .add ⟨1⟩ 0 {},
    .make ⟨1⟩ [⟨⟨⟨1⟩, .width⟩, .atLeast, none⟩] {}, .replace ⟨1⟩ ⟨2⟩ 1 {}, .join ⟨0⟩ ⟨1⟩]

theorem accepted_pin_lasts_joined :
    ∃ l, ((empty : Session Rat).run joinedPinEvents).layout? ⟨0⟩ = some l ∧
      l.isManaged ⟨1⟩ = true ∧ l.pin? ⟨⟨1⟩, .left⟩ = some ⟨1⟩ ∧
      (l.pin ((empty : Session Rat).run joinedPinEvents).ids ⟨⟨1⟩, .left⟩ 7).1 = .ok () ∧
      (empty : Session Rat).leavesPins joinedPinEvents = true ∧
      Layout.InForce (l.pin ((empty : Session Rat).run joinedPinEvents).ids
        ⟨⟨1⟩, .left⟩ 7).2.1 ⟨⟨1⟩, .left⟩ 7 := by
  have hstate : (((empty : Session Rat).run joinedPinEvents).layout? ⟨0⟩).any (fun l =>
      l.isManaged ⟨1⟩ && decide (l.pin? ⟨⟨1⟩, .left⟩ = some ⟨1⟩) &&
        (l.pin ((empty : Session Rat).run joinedPinEvents).ids ⟨⟨1⟩, .left⟩ 7).1.isOk) = true := by
    decide +kernel
  have hleaves : (empty : Session Rat).leavesPins joinedPinEvents = true := by
    decide +kernel
  obtain ⟨l, hl, htest⟩ := (Option.any_eq_true _ _).1 hstate
  simp only [Bool.and_eq_true, decide_eq_true_eq] at htest
  obtain ⟨⟨hmanaged, hpin⟩, hok⟩ := htest
  cases hresult : (l.pin ((empty : Session Rat).run joinedPinEvents).ids ⟨⟨1⟩, .left⟩ 7).1 with
  | error cause =>
      rw [hresult] at hok
      cases hok
  | ok _ =>
      exact ⟨l, hl, hmanaged, hpin, hresult, hleaves,
        (accepted_pin_lasts joinedPinEvents hl hmanaged hresult).2.2 hleaves⟩

/-- The constraint of a pin is taken out, added again by the caller, and made a weak preference. -/
def weakenedEvents : List (Event Rat) :=
  [.start {}, .ask ⟨0⟩ (.manage ⟨1⟩), .ask ⟨0⟩ (.pin ⟨⟨1⟩, .left⟩ 5), .copy ⟨0⟩ ⟨1⟩,
    .ask ⟨0⟩ (.remove ⟨1⟩), .add ⟨0⟩ 0 {}, .ask ⟨0⟩ (.update ⟨1⟩ { priority := some .lowest })]

/-- Pinning again is accepted, but what holds the variable is neither required nor marked. -/
theorem not_inForce_weakenedEvents :
    ∃ l, ((empty : Session Rat).run weakenedEvents).layout? ⟨0⟩ = some l ∧
      l.isManaged ⟨1⟩ = true ∧
      (l.pin ((empty : Session Rat).run weakenedEvents).ids ⟨⟨1⟩, .left⟩ 7).1 = .ok () ∧
      (((l.pin ((empty : Session Rat).run weakenedEvents).ids ⟨⟨1⟩, .left⟩ 7).2.1.constraint?
        ⟨1⟩).any fun c => c.strength.isRequired) = false ∧
      ((l.pin ((empty : Session Rat).run weakenedEvents).ids ⟨⟨1⟩, .left⟩ 7).2.1.removeExternal
        ⟨1⟩).2.pin? ⟨⟨1⟩, .left⟩ = none ∧
      ¬ Layout.InForce (l.pin ((empty : Session Rat).run weakenedEvents).ids ⟨⟨1⟩, .left⟩ 7).2.1
        ⟨⟨1⟩, .left⟩ 7 := by
  have hstate : (((empty : Session Rat).run weakenedEvents).layout? ⟨0⟩).any (fun l =>
      let o := l.pin ((empty : Session Rat).run weakenedEvents).ids ⟨⟨1⟩, .left⟩ 7
      l.isManaged ⟨1⟩ && o.1.isOk &&
        !((o.2.1.constraint? ⟨1⟩).any fun c => c.strength.isRequired) &&
        decide ((o.2.1.removeExternal ⟨1⟩).2.pin? ⟨⟨1⟩, .left⟩ = none) &&
        decide (o.2.1.system.toList = [])) = true := by
    decide +kernel
  obtain ⟨l, hl, htest⟩ := (Option.any_eq_true _ _).1 hstate
  simp only [Bool.and_eq_true, decide_eq_true_eq, Bool.not_eq_true'] at htest
  obtain ⟨⟨⟨⟨hmanaged, hok⟩, hweak⟩, hgone⟩, hsystem⟩ := htest
  cases hresult : (l.pin ((empty : Session Rat).run weakenedEvents).ids ⟨⟨1⟩, .left⟩ 7).1 with
  | error cause =>
      rw [hresult] at hok
      cases hok
  | ok _ =>
      refine ⟨l, hl, hmanaged, hresult, hweak, hgone, ?_⟩
      rintro ⟨id, c, _, _, hmarked, _⟩
      rw [hsystem] at hmarked
      cases hmarked

end Session
end LinearLayout
