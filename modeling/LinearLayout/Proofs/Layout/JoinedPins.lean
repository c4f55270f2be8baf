import LinearLayout.Proofs.Layout.Purposes

/-!
# Pins in a join

A variable that is pinned on either side of a join is pinned afterwards, by the receiver's pin if
it has one.  There is one exception.  The table of pins keeps the entry of a pin whose constraint
has been removed by name; such an entry holds nothing, but in a join it stands in the way of the
other layout's pin.
-/

namespace LinearLayout
namespace Layout

variable {K : Type} [Scalar K] {l other : Layout K} {names : Names} {id : ConstraintId}
  {v : Variable}

/-- The table has an entry for the variable, but the constraint of the entry is not active. -/
def Stale (l : Layout K) (v : Variable) : Prop :=
  l.pins.contains v = true ∧ l.pin? v = none

/-- A variable that is pinned on either side is pinned afterwards, or the other's pin is refused. -/
structure KeepsPin (l other : Layout K) (v : Variable) : Prop where
  own : ∀ id, l.pin? v = some id → (l.join other).2.pin? v = some id
  taken : l.pin? v = none → ∀ id, other.pin? v = some id →
    (l.join other).2.pin? v = some id ∨ id ∈ (l.join other).1

theorem Named.isActive_join
    (h : Named names other)
    (hactive : l.isActive id = true) :
    (l.join other).2.isActive id = true := by
  have hmerged := h.merged_join (l := l)
  have hkept : (l.join other).2.constraints.get? id = l.constraints.get? id →
      (l.join other).2.isActive id = true := fun hsame => (isActive_congr hsame).trans hactive
  by_cases hmem : id ∈ other.constraints.entries.map Prod.fst
  · obtain ⟨entry, hentry, rfl⟩ := List.mem_map.1 hmem
    cases hmerged.fates entry hentry with
    | discarded mem unlisted same mark => exact hkept same
    | refused not_mem listed same mark => exact hkept same
    | enforced not_mem unlisted constraint mark => exact isActive_of_constraint? constraint
  · exact hkept (hmerged.untouched id hmem).constraints

/-- What the other layout keeps as a pin is discarded exactly if the receiver has an entry. -/
theorem discards_pin_iff
    (hsole : ∀ p q, other.Uses id p → other.Uses id q → p = q)
    (hv : other.pins.get? v = some id) :
    l.Discards other id ↔ l.pins.contains v = true := by
  constructor
  · rintro (⟨e, r, axis, _, hr, hid⟩ | ⟨w, hpinned, hw⟩)
    · cases hsole (.value v) (.size e axis) hv ⟨r, hr, hid⟩
    · cases hsole (.value v) (.value w) hv hw
      exact hpinned
  · exact fun hpinned => Or.inr ⟨v, hpinned, hv⟩

theorem Named.keepsPin_iff
    (h : Named names other)
    (hsole : ∀ id p q, other.Uses id p → other.Uses id q → p = q)
    (v : Variable) :
    KeepsPin l other v ↔ ¬ (l.Stale v ∧ ∃ id, other.pin? v = some id) := by
  have hmerged := h.merged_join (l := l)
  constructor
  · rintro hkeeps ⟨⟨hentry, hnone⟩, id, hid⟩
    obtain ⟨hv, hactive⟩ := pin?_eq_some_iff.1 hid
    obtain ⟨a, ha⟩ := isActive_iff.1 hactive
    have hdiscards : id ∈ l.superseded other :=
      mem_superseded_iff.2 ((discards_pin_iff (hsole id) hv).2 hentry)
    cases hmerged.fates (id, a) (OrderedMap.get?_eq_some_iff.1 ha) with
    | refused not_mem listed same mark => exact not_mem hdiscards
    | enforced not_mem unlisted constraint mark => exact not_mem hdiscards
    | discarded mem unlisted same mark =>
        rcases hkeeps.taken hnone id hid with hpin | hlisted
        · obtain ⟨hpin, hforce⟩ := pin?_eq_some_iff.1 hpin
          -- the receiver's entry is still there, and its constraint is no more active than before
          rcases get?_pins_join.1 hpin with ⟨hnew, _⟩ | hold
          · rw [OrderedMap.contains, ((get?_newPins v).1 hnew).2] at hentry
            cases hentry
          · rw [isActive_congr same] at hforce
            rw [pin?_eq_some_iff.2 ⟨hold, hforce⟩] at hnone
            cases hnone
        · exact unlisted hlisted
  · intro hfresh
    refine ⟨fun id hid => ?_, fun hnone id hid => ?_⟩
    · obtain ⟨hv, hactive⟩ := pin?_eq_some_iff.1 hid
      exact pin?_eq_some_iff.2 ⟨get?_pins_join.2 (Or.inr hv), h.isActive_join hactive⟩
    · obtain ⟨hv, hactive⟩ := pin?_eq_some_iff.1 hid
      obtain ⟨a, ha⟩ := isActive_iff.1 hactive
      have hentry : ¬ l.pins.contains v = true := fun hentry => hfresh ⟨⟨hentry, hnone⟩, id, hid⟩
      have hwelcome : id ∉ l.superseded other := fun hmem =>
        hentry ((discards_pin_iff (hsole id) hv).1 (mem_superseded_iff.1 hmem))
      have hfree : l.pins.get? v = none := Option.not_isSome_iff_eq_none.1 hentry
      cases hmerged.fates (id, a) (OrderedMap.get?_eq_some_iff.1 ha) with
      | discarded mem unlisted same mark => exact absurd mem hwelcome
      | refused not_mem listed same mark => exact Or.inr listed
      | enforced not_mem unlisted constraint mark =>
          have hforce : (l.join other).2.isActive id = true := isActive_of_constraint? constraint
          have hnew := (get?_newPins v).2 ⟨hv, hfree⟩
          exact Or.inl (pin?_eq_some_iff.2 ⟨get?_pins_join.2 (Or.inl ⟨hnew, hforce⟩), hforce⟩)

end Layout

namespace Session

variable {K : Type} [Scalar K] {h : Handle} {other : Layout K}

/--
A join keeps the pin of a variable unless the receiver has a stale entry for it and the other
layout a pin.  Nothing is assumed of the receiver.
-/
theorem join_keeps_pin_iff
    (events : List (Event K))
    (hother : ((empty : Session K).run events).layout? h = some other)
    (l : Layout K) (v : Variable) :
    Layout.KeepsPin l other v ↔ ¬ (l.Stale v ∧ ∃ id, other.pin? v = some id) := by
  obtain ⟨names, hrun⟩ := registered_run events
  have hregistered : Layout.Registered names other := hrun.layouts h other hother
  refine hregistered.named.keepsPin_iff (fun id p q hp hq => ?_) v
  exact (sole_run events).eq ⟨h, other, hother, hp⟩ ⟨h, other, hother, hq⟩

/--
Two layouts share an entity.  The first has lost the constraint of its pin on the left edge; the
other pins the left and the top edge.
-/
def staleEvents : List (Event Rat) :=
  [.start {}, .start {}, .ask ⟨0⟩ (.manage ⟨1⟩), .ask ⟨1⟩ (.manage ⟨1⟩),
    .ask ⟨0⟩ (.pin ⟨⟨1⟩, .left⟩ 5), .ask ⟨1⟩ (.pin ⟨⟨1⟩, .left⟩ 7), .ask ⟨1⟩ (.pin ⟨⟨1⟩, .top⟩ 3),
    .ask ⟨0⟩ (.remove ⟨1⟩)]

theorem join_keeps_pin_iff_top :
    ∃ l other, ((empty : Session Rat).run staleEvents).layout? ⟨0⟩ = some l ∧
      ((empty : Session Rat).run staleEvents).layout? ⟨1⟩ = some other ∧
      other.pin? ⟨⟨1⟩, .top⟩ = some ⟨3⟩ ∧
      (l.join other).2.pin? ⟨⟨1⟩, .top⟩ = some ⟨3⟩ ∧
      (Layout.KeepsPin l other ⟨⟨1⟩, .top⟩ ↔
        ¬ (l.Stale ⟨⟨1⟩, .top⟩ ∧ ∃ id, other.pin? ⟨⟨1⟩, .top⟩ = some id)) := by
  have hstate : (((empty : Session Rat).run staleEvents).layout? ⟨0⟩).bind (fun l =>
      (((empty : Session Rat).run staleEvents).layout? ⟨1⟩).map fun other =>
        (other.pin? ⟨⟨1⟩, .top⟩, (l.join other).2.pin? ⟨⟨1⟩, .top⟩)) =
      some (some ⟨3⟩, some ⟨3⟩) := by
    decide +kernel
  obtain ⟨l, hl, hpair⟩ := Option.bind_eq_some_iff.1 hstate
  obtain ⟨other, hother, hparts⟩ := Option.map_eq_some_iff.1 hpair
  simp only [Prod.mk.injEq] at hparts
  exact ⟨l, other, hl, hother, hparts.1, hparts.2,
    join_keeps_pin_iff staleEvents hother l ⟨⟨1⟩, .top⟩⟩

/-- The stale entry costs the other layout its pin on the left edge, which is not listed either. -/
theorem left_unpinned_staleEvents :
    ∃ l other, ((empty : Session Rat).run staleEvents).layout? ⟨0⟩ = some l ∧
      ((empty : Session Rat).run staleEvents).layout? ⟨1⟩ = some other ∧
      apart l other = true ∧ l.pin? ⟨⟨1⟩, .left⟩ = none ∧
      other.pin? ⟨⟨1⟩, .left⟩ = some ⟨2⟩ ∧ (l.join other).1 = [] ∧
      (l.join other).2.pin? ⟨⟨1⟩, .left⟩ = none ∧
      ¬ Layout.KeepsPin l other ⟨⟨1⟩, .left⟩ := by
  have hstate : (((empty : Session Rat).run staleEvents).layout? ⟨0⟩).bind (fun l =>
      (((empty : Session Rat).run staleEvents).layout? ⟨1⟩).map fun other =>
        (apart l other, l.pin? ⟨⟨1⟩, .left⟩, other.pin? ⟨⟨1⟩, .left⟩, (l.join other).1,
          (l.join other).2.pin? ⟨⟨1⟩, .left⟩)) =
      some (true, none, some ⟨2⟩, [], none) := by
    decide +kernel
  obtain ⟨l, hl, hpair⟩ := Option.bind_eq_some_iff.1 hstate
  obtain ⟨other, hother, hparts⟩ := Option.map_eq_some_iff.1 hpair
  simp only [Prod.mk.injEq] at hparts
  obtain ⟨hapart, hnone, hpin, hlisted, hlost⟩ := hparts
  refine ⟨l, other, hl, hother, hapart, hnone, hpin, hlisted, hlost, fun hkeeps => ?_⟩
  rcases hkeeps.taken hnone ⟨2⟩ hpin with hkept | hmem
  · exact nomatch hlost.symm.trans hkept
  · rw [hlisted] at hmem
    cases hmem

end Session
end LinearLayout
