import LinearLayout.Layout.Session

/-!
# Names of constraints

A name stands for one owner and one list of items, whatever becomes of the numbers of the
constraint and however many copies of it there are.  What the names in use stand for is a
function that only ever grows, since the supply gives out every name once.
-/

namespace LinearLayout

/-- What all constraints of one name have in common. -/
structure Blueprint where
  owner : Entity
  items : List Item

/-- The blueprint of a pin. -/
def Blueprint.pin (v : Variable) : Blueprint :=
  ⟨v.entity, [⟨v, .equal, none⟩]⟩

/-- The names in use and what they stand for. -/
abbrev Names :=
  ConstraintId → Option Blueprint

/-- Later names: those in use stand for the same. -/
def Names.Extends (names later : Names) : Prop :=
  ∀ id b, names id = some b → later id = some b

namespace Constraint

variable {K : Type} [Scalar K]

/-- What a constraint has in common with all others of its name. -/
def blueprint (c : Constraint K) : Blueprint :=
  ⟨c.owner, c.items⟩

theorem owner_eq_of_blueprint
    {c d : Constraint K}
    (h : c.blueprint = d.blueprint) :
    c.owner = d.owner :=
  congrArg Blueprint.owner h

theorem owner_mem_entities
    (c : Constraint K) :
    c.owner ∈ c.entities :=
  List.mem_cons_self

@[simp] theorem id_edit
    (c : Constraint K) (e : Edit K) :
    (c.edit e).id = c.id :=
  rfl

/-- An edit gives constraints new values and leaves them their names and what these stand for. -/
structure Revalues (edit : Constraint K → Constraint K) : Prop where
  id : ∀ c, (edit c).id = c.id
  blueprint : ∀ c, (edit c).blueprint = c.blueprint

theorem revalues_edit
    (e : Edit K) :
    Revalues fun c : Constraint K => c.edit e :=
  ⟨fun _ => rfl, fun _ => rfl⟩

theorem revalues_withOffset
    (x : K) :
    Revalues fun c : Constraint K => c.withOffset x :=
  ⟨fun _ => rfl, fun _ => rfl⟩

end Constraint

namespace Names

variable {names later : Names} {n : Nat} {id : ConstraintId} {b : Blueprint}

/-- Names of a number or above are not in use. -/
def Below (names : Names) (n : Nat) : Prop :=
  ∀ id b, names id = some b → id.number < n

/-- One more name. -/
def give (names : Names) (id : ConstraintId) (b : Blueprint) : Names :=
  fun i => if i = id then some b else names i

theorem give_self
    (names : Names) (id : ConstraintId) (b : Blueprint) :
    names.give id b id = some b :=
  if_pos rfl

theorem Extends.refl
    (names : Names) :
    names.Extends names :=
  fun _ _ h => h

theorem Extends.trans
    {last : Names}
    (h : names.Extends later)
    (hlast : later.Extends last) :
    names.Extends last :=
  fun id b hb => hlast id b (h id b hb)

/-- A name that later is free was free before. -/
theorem Extends.eq_none
    (h : names.Extends later)
    (hid : later id = none) :
    names id = none := by
  cases hb : names id with
  | none => rfl
  | some b => exact nomatch (h id b hb).symm.trans hid

theorem Below.eq_none
    (h : names.Below n)
    (hid : n ≤ id.number) :
    names id = none := by
  cases hb : names id with
  | none => rfl
  | some b => exact absurd (h id b hb) (Nat.not_lt.2 hid)

theorem extends_give
    (h : names id = none) :
    names.Extends (names.give id b) := by
  intro i b' hb'
  have hne : i ≠ id := fun hi => nomatch (hi ▸ hb').symm.trans h
  rw [give, if_neg hne, hb']

theorem Below.give
    (h : names.Below n)
    (b : Blueprint) :
    (names.give ⟨n⟩ b).Below (n + 1) := by
  intro i b' hb'
  rw [Names.give] at hb'
  split at hb'
  · next hi => rw [hi]; exact Nat.lt_succ_self n
  · exact Nat.lt_succ_of_lt (h i b' hb')

/-- Constraints under names that were not in use before. -/
structure Issues {K : Type} [Scalar K] (names later : Names) (cs : List (Constraint K)) :
    Prop where
  grows : names.Extends later
  named : ∀ c ∈ cs, later c.id = some c.blueprint
  fresh : ∀ c ∈ cs, names c.id = none
  distinct : (cs.map Constraint.id).Nodup

variable {K : Type} [Scalar K]

theorem exists_issues
    {ids : IdSupply}
    (h : names.Below ids.next)
    {fs : List (ConstraintId → Constraint K)}
    (hfs : ∀ f ∈ fs, ∀ id, (f id).id = id) :
    ∃ later, names.Issues later (ids.assign fs).1 ∧ later.Below (ids.assign fs).2.next := by
  induction fs generalizing ids names with
  | nil =>
      exact ⟨names, ⟨Extends.refl names, nofun, nofun, List.nodup_nil⟩, h⟩
  | cons f fs ih =>
      have hfree : names ⟨ids.next⟩ = none := h.eq_none (Nat.le_refl _)
      have hname : (f ⟨ids.next⟩).id = ⟨ids.next⟩ := hfs f List.mem_cons_self _
      have hgiven := extends_give (b := (f ⟨ids.next⟩).blueprint) hfree
      have hnext : (names.give ⟨ids.next⟩ (f ⟨ids.next⟩).blueprint).Below ids.take.2.next :=
        h.give _
      obtain ⟨later, hissues, hbelow⟩ := ih hnext fun g hg => hfs g (List.mem_cons_of_mem f hg)
      refine ⟨later, ⟨hgiven.trans hissues.grows, ?_, ?_, ?_⟩, hbelow⟩
      · intro c hc
        rcases List.mem_cons.1 hc with rfl | hc
        · exact hissues.grows _ _ ((congrArg _ hname).trans (give_self _ _ _))
        · exact hissues.named c hc
      · intro c hc
        rcases List.mem_cons.1 hc with rfl | hc
        · exact (congrArg names hname).trans hfree
        · exact hgiven.eq_none (hissues.fresh c hc)
      · refine List.nodup_cons.2 ⟨fun hmem => ?_, hissues.distinct⟩
        obtain ⟨c, hc, hid⟩ := List.mem_map.1 hmem
        have hfresh := hissues.fresh c hc
        rw [hid, hname, give_self] at hfresh
        cases hfresh

end Names

namespace AxisIntrinsic

variable {K : Type} [Scalar K]

theorem id_of_mem_demands
    {a : AxisIntrinsic K} {e : Entity} {axis : Axis} {f : ConstraintId → Constraint K}
    (hf : f ∈ a.demands e axis)
    (id : ConstraintId) :
    (f id).id = id := by
  unfold demands at hf
  split at hf
  · cases hf
  · obtain ⟨b, _, rfl⟩ := List.mem_map.1 hf
    rfl

theorem owner_of_mem_demands
    {a : AxisIntrinsic K} {e : Entity} {axis : Axis} {f : ConstraintId → Constraint K}
    (hf : f ∈ a.demands e axis)
    (id : ConstraintId) :
    (f id).owner = e := by
  unfold demands at hf
  split at hf
  · cases hf
  · obtain ⟨b, _, rfl⟩ := List.mem_map.1 hf
    rfl

end AxisIntrinsic

theorem IdSupply.exists_of_mem_assign
    {α : Type} {ids : IdSupply} {fs : List (ConstraintId → α)} {x : α}
    (hx : x ∈ (ids.assign fs).1) :
    ∃ f ∈ fs, ∃ id, x = f id := by
  induction fs generalizing ids with
  | nil =>
      cases hx
  | cons f fs ih =>
      rcases List.mem_cons.1 hx with rfl | hx
      · exact ⟨f, List.mem_cons_self, _, rfl⟩
      · obtain ⟨g, hg, id, rfl⟩ := ih hx
        exact ⟨g, List.mem_cons_of_mem f hg, id, rfl⟩

end LinearLayout
