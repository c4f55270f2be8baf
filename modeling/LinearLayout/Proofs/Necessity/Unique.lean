import LinearLayout.Layout.Entities
import LinearLayout.Proofs.Necessity.Calls
import LinearLayout.Proofs.Solver.Meaning

/-!
# Fixed variables have one value

The analysis looks at items and boxes only.  It may pass over a measurement because the equations
behind them leave a fixed variable one value: an equality gives its left side from its right side,
and two variables of a box give the others.  The way back, from the left side of an item to its
right side, divides by the multiplier.  A constraint with multiplier zero does not speak of its
right sides at all, and what the analysis fixes through it may take any value.
-/

namespace LinearLayout

/-- The values satisfy the equations of all boxes. -/
def FitsBoxes (ν : Variable → Rat) : Prop :=
  ∀ e axis, ∀ q ∈ boxEquations e axis, q.Satisfied ν

/-- An item as its equation has it: a multiplier of zero leaves no right side. -/
def Constraint.speaking (c : Constraint Rat) (item : Item) : Item :=
  if c.multiplier = 0 then { item with right := none } else item

section Agreement

variable {σ τ : Variable → Rat} {items : Item → Prop} {item : Item} {c : Constraint Rat}
  {v w x : Variable} {e : Entity} {axis : Axis}

theorem FitsBoxes.extent_eq
    (h : FitsBoxes σ)
    (e : Entity) (axis : Axis) :
    σ ⟨e, axis.extent⟩ = σ ⟨e, axis.trailing⟩ - σ ⟨e, axis.leading⟩ := by
  have hsum := h e axis _ List.mem_cons_self
  simp only [Equation.Satisfied, Equation.sum, List.map_cons, List.map_nil, List.sum_cons,
    List.sum_nil] at hsum
  linarith

theorem FitsBoxes.center_eq
    (h : FitsBoxes σ)
    (e : Entity) (axis : Axis) :
    2 * σ ⟨e, axis.center⟩ = σ ⟨e, axis.leading⟩ + σ ⟨e, axis.trailing⟩ := by
  have hsum := h e axis _ (List.mem_cons_of_mem _ List.mem_cons_self)
  simp only [Equation.Satisfied, Equation.sum, List.map_cons, List.map_nil, List.sum_cons,
    List.sum_nil, Nat.cast_ofNat] at hsum
  linarith

/-- Two variables of a box give its edges. -/
theorem FitsBoxes.edges_agree
    (hσ : FitsBoxes σ)
    (hτ : FitsBoxes τ)
    {a b : Attribute}
    (ha : a ∈ axis.boxAttributes)
    (hb : b ∈ axis.boxAttributes)
    (hne : a ≠ b)
    (hfirst : σ ⟨e, a⟩ = τ ⟨e, a⟩)
    (hsecond : σ ⟨e, b⟩ = τ ⟨e, b⟩) :
    σ ⟨e, axis.leading⟩ = τ ⟨e, axis.leading⟩ ∧ σ ⟨e, axis.trailing⟩ = τ ⟨e, axis.trailing⟩ := by
  have hextentσ := hσ.extent_eq e axis
  have hextentτ := hτ.extent_eq e axis
  have hcenterσ := hσ.center_eq e axis
  have hcenterτ := hτ.center_eq e axis
  simp only [Axis.boxAttributes, List.mem_cons, List.not_mem_nil, or_false] at ha hb
  rcases ha with rfl | rfl | rfl | rfl <;> rcases hb with rfl | rfl | rfl | rfl <;>
    first
    | exact absurd rfl hne
    | constructor <;> linarith

/-- Two variables of a box give the other two. -/
theorem FitsBoxes.agree
    (hσ : FitsBoxes σ)
    (hτ : FitsBoxes τ)
    (hw : w ∈ v.boxmates)
    (hx : x ∈ v.boxmates)
    (hne : v ≠ w)
    (hfirst : σ v = τ v)
    (hsecond : σ w = τ w) :
    σ x = τ x := by
  obtain ⟨b, hb, rfl⟩ := List.mem_map.1 hw
  obtain ⟨a, ha, rfl⟩ := List.mem_map.1 hx
  obtain ⟨e, a'⟩ := v
  have hattributes : a' ≠ b := fun h => hne (congrArg (Variable.mk e) h)
  obtain ⟨hleading, htrailing⟩ := hσ.edges_agree hτ (Attribute.mem_boxAttributes_axis a') hb
    hattributes hfirst hsecond
  have hextentσ := hσ.extent_eq e a'.axis
  have hextentτ := hτ.extent_eq e a'.axis
  have hcenterσ := hσ.center_eq e a'.axis
  have hcenterτ := hτ.center_eq e a'.axis
  simp only [Axis.boxAttributes, List.mem_cons, List.not_mem_nil, or_false] at ha
  rcases ha with rfl | rfl | rfl | rfl <;> dsimp only <;> linarith

/-- Values that agree on what the items say of one side agree on all that is determined. -/
theorem Determined.agree
    (hσ : FitsBoxes σ)
    (hτ : FitsBoxes τ)
    (halone : ∀ item, items item → item.right = none → σ item.left = τ item.left)
    (hsides : ∀ item v, items item → item.right = some v →
      (σ item.left = τ item.left ↔ σ v = τ v))
    (h : Determined items v) :
    σ v = τ v := by
  induction h with
  | alone hitem hright => exact halone _ hitem hright
  | right hitem hright _ ih => exact (hsides _ _ hitem hright).1 ih
  | left hitem hright _ ih => exact (hsides _ _ hitem hright).2 ih
  | box hw hx hne _ _ ihv ihw => exact hσ.agree hτ hw hx hne ihv ihw

theorem Constraint.sum_equation
    (c : Constraint Rat) (item : Item) (σ : Variable → Rat) :
    (c.equation item).sum σ = σ item.left - c.multiplier * (item.right.elim 0 σ) := by
  cases hright : item.right <;> simp [Equation.sum, Constraint.equation, hright, sub_eq_add_neg]

/-- The values satisfy the equations of a constraint. -/
def Constraint.Satisfied (c : Constraint Rat) (ν : Variable → Rat) : Prop :=
  ∀ q ∈ c.equations, q.Satisfied ν

/-- The equation of an item of a fixing constraint. -/
theorem Constraint.Satisfied.left_eq
    (h : c.Satisfied σ)
    (hfixing : c.isFixing = true)
    (hitem : item ∈ c.items) :
    σ item.left = c.multiplier * (item.right.elim 0 σ) + c.offset := by
  have hrelation : item.relation = .equal := by
    have hall := List.all_eq_true.1 (Bool.and_eq_true_iff.1 hfixing).2 item hitem
    exact eq_of_beq hall
  have hsatisfied := h _ (List.mem_map_of_mem hitem)
  have hequal : (c.equation item).sum σ = c.offset := by
    unfold Equation.Satisfied at hsatisfied
    rwa [show (c.equation item).relation = .equal from hrelation] at hsatisfied
  rw [c.sum_equation] at hequal
  linarith

end Agreement

namespace Necessity

variable {calls : List (Call Rat)} {σ τ : Variable → Rat} {c : Constraint Rat} {item : Item}
  {v : Variable}

/-- An item of a constraint that is on record, as its equation has it. -/
def SpeakingOnRecord (calls : List (Call Rat)) (item : Item) : Prop :=
  ∃ id c, onRecord calls id = some c ∧ ∃ i ∈ c.items, item = c.speaking i

/-- The values satisfy all constraints on record and all boxes. -/
structure Solves (calls : List (Call Rat)) (ν : Variable → Rat) : Prop where
  constraints : ∀ id c, onRecord calls id = some c → c.Satisfied ν
  boxes : FitsBoxes ν

/-- No constraint on record with a right side has multiplier zero. -/
def Invertible (calls : List (Call Rat)) : Prop :=
  ∀ id c, onRecord calls id = some c → c.multiplier = 0 → ∀ item ∈ c.items, item.right = none

/-- What the equations on record determine has one value. -/
theorem Solves.agree
    (hσ : Solves calls σ)
    (hτ : Solves calls τ)
    (h : Determined (SpeakingOnRecord calls) v) :
    σ v = τ v := by
  refine h.agree hσ.boxes hτ.boxes ?_ ?_
  · rintro item ⟨id, c, hc, i, hi, rfl⟩ hright
    have hleftσ := (hσ.constraints id c hc).left_eq (mem_of_onRecord hc).1 hi
    have hleftτ := (hτ.constraints id c hc).left_eq (mem_of_onRecord hc).1 hi
    unfold Constraint.speaking at hright ⊢
    split at hright
    · next hzero =>
      rw [if_pos hzero]
      simp only [hleftσ, hleftτ, hzero, zero_mul]
    · next hzero =>
      rw [if_neg hzero, hleftσ, hleftτ, hright]
      rfl
  · rintro item v ⟨id, c, hc, i, hi, rfl⟩ hright
    have hleftσ := (hσ.constraints id c hc).left_eq (mem_of_onRecord hc).1 hi
    have hleftτ := (hτ.constraints id c hc).left_eq (mem_of_onRecord hc).1 hi
    unfold Constraint.speaking at hright ⊢
    split at hright
    · cases hright
    · next hzero =>
      rw [if_neg hzero, hleftσ, hleftτ, hright, add_left_inj, Option.elim_some, Option.elim_some]
      exact mul_right_inj' hzero

theorem Invertible.speaking
    (h : Invertible calls)
    (hitem : ItemOnRecord calls item) :
    SpeakingOnRecord calls item := by
  obtain ⟨id, c, hc, hmem⟩ := hitem
  refine ⟨id, c, hc, item, hmem, ?_⟩
  unfold Constraint.speaking
  split
  · next hzero =>
    have hright := h id c hc hzero item hmem
    rw [← hright]
  · rfl

/--
Values that satisfy the constraints on record and the boxes agree on all that the equations
determine, an item of a multiplier of zero being one without a right side.  Where no such item has
a right side, that is all that is reported as fixed.
-/
theorem fixed_unique
    (h : SameItems calls)
    (hσ : Solves calls σ)
    (hτ : Solves calls τ) :
    (∀ v, Determined (SpeakingOnRecord calls) v → σ v = τ v) ∧
      (Invertible calls → ∀ v, ((run ∅ calls).isFixed v).1 = true → σ v = τ v) := by
  refine ⟨fun v => hσ.agree hτ, fun hinvertible v hv => hσ.agree hτ ?_⟩
  exact (((follows_run h).isFixed_iff v).1 hv).mono fun item => hinvertible.speaking

/-- Every box is ten wide and starts at the edge; only the second entity may be elsewhere. -/
def tenWide (x : Rat) (v : Variable) : Rat :=
  let start := if v.entity = ⟨2⟩ then x else 0
  match v.attr with
  | .left => start
  | .right => start + 10
  | .width => 10
  | .centerX => start + 5
  | _ => 0

theorem solves_laggingCalls
    (x : Rat) :
    Solves laggingCalls (tenWide x) where
  constraints := by
    intro id c hc q hq
    obtain ⟨_, _, hadded⟩ := mem_of_onRecord hc
    simp only [laggingCalls, List.mem_cons, Call.add.injEq, List.not_mem_nil, reduceCtorEq,
      false_or, or_false] at hadded
    rcases hadded with rfl | rfl | rfl | rfl
    all_goals
      rw [List.mem_singleton.1 hq]
      simp [Equation.Satisfied, Equation.sum, Constraint.equation, Constraint.between,
        Constraint.toValue, Constraint.new, Constraint.withOffset, tenWide]
  boxes := by
    intro e axis q hq
    simp only [boxEquations, List.mem_cons, List.not_mem_nil, or_false] at hq
    by_cases he : e = ⟨2⟩
    all_goals
      rcases hq with rfl | rfl <;> cases axis <;>
        simp [Equation.Satisfied, Equation.sum, Axis.leading, Axis.trailing, Axis.extent,
          Axis.center, tenWide, he]
    · ring
    · norm_num

theorem fixed_unique_lagging :
    SameItems laggingCalls ∧ Solves laggingCalls (tenWide 0) ∧ Solves laggingCalls (tenWide 7) ∧
      Invertible laggingCalls ∧ tenWide 0 ⟨⟨2⟩, .left⟩ ≠ tenWide 7 ⟨⟨2⟩, .left⟩ ∧
      ((run ∅ laggingCalls).isFixed ⟨⟨1⟩, .right⟩).1 = true ∧
      tenWide 0 ⟨⟨1⟩, .right⟩ = tenWide 7 ⟨⟨1⟩, .right⟩ := by
  have hinvertible : Invertible laggingCalls := by
    intro id c hc hzero
    obtain ⟨_, _, hadded⟩ := mem_of_onRecord hc
    simp only [laggingCalls, List.mem_cons, Call.add.injEq, List.not_mem_nil, reduceCtorEq,
      false_or, or_false] at hadded
    rcases hadded with rfl | rfl | rfl | rfl <;> exact absurd hzero one_ne_zero
  have hfixed : ((run ∅ laggingCalls).isFixed ⟨⟨1⟩, .right⟩).1 = true := by
    decide +kernel
  refine ⟨sameItems_laggingCalls, solves_laggingCalls 0, solves_laggingCalls 7, hinvertible,
    by decide, hfixed, ?_⟩
  exact (fixed_unique sameItems_laggingCalls (solves_laggingCalls 0) (solves_laggingCalls 7)).2
    hinvertible _ hfixed

/-- An edge is fixed and stated again with a second extent that has no weight in it. -/
def weightlessCalls : List (Call Rat) :=
  [.add ((Constraint.between ⟨1⟩ ⟨⟨1⟩, .left⟩ .equal ⟨⟨2⟩, .width⟩).edit
      { multiplier := some 0, offset := some 5 }),
    .add (.toValue ⟨2⟩ ⟨⟨1⟩, .left⟩ .equal 5)]

/-- The values of a row of boxes from five on, the second entity being of any width. -/
def anyWidth (x : Rat) (v : Variable) : Rat :=
  let extent := if v.entity = ⟨2⟩ then x else 0
  match v.attr with
  | .left => 5
  | .right => 5 + extent
  | .width => extent
  | .centerX => 5 + extent / 2
  | _ => 0

theorem solves_weightlessCalls
    (x : Rat) :
    Solves weightlessCalls (anyWidth x) where
  constraints := by
    intro id c hc q hq
    obtain ⟨_, _, hadded⟩ := mem_of_onRecord hc
    simp only [weightlessCalls, List.mem_cons, Call.add.injEq, List.not_mem_nil, or_false] at hadded
    rcases hadded with rfl | rfl
    all_goals
      rw [List.mem_singleton.1 hq]
      simp [Equation.Satisfied, Equation.sum, Constraint.equation, Constraint.between,
        Constraint.toValue, Constraint.new, Constraint.withOffset, Constraint.edit, anyWidth]
  boxes := by
    intro e axis q hq
    simp only [boxEquations, List.mem_cons, List.not_mem_nil, or_false] at hq
    rcases hq with rfl | rfl <;> cases axis
    all_goals
      simp [Equation.Satisfied, Equation.sum, Axis.leading, Axis.trailing, Axis.extent,
        Axis.center, anyWidth]
    ring

/-- The second extent is reported as fixed although it may have any value. -/
theorem fixed_not_unique_weightlessCalls :
    SameItems weightlessCalls ∧ ((run ∅ weightlessCalls).isFixed ⟨⟨2⟩, .width⟩).1 = true ∧
      Solves weightlessCalls (anyWidth 10) ∧ Solves weightlessCalls (anyWidth 20) ∧
      anyWidth 10 ⟨⟨2⟩, .width⟩ ≠ anyWidth 20 ⟨⟨2⟩, .width⟩ := by
  refine ⟨?_, by decide +kernel, solves_weightlessCalls 10, solves_weightlessCalls 20, by decide⟩
  intro c d hc hd hid
  simp only [weightlessCalls, List.mem_cons, Call.add.injEq, List.not_mem_nil, or_false] at hc hd
  rcases hc with rfl | rfl <;> rcases hd with rfl | rfl <;> first | rfl | cases hid

end Necessity
end LinearLayout
