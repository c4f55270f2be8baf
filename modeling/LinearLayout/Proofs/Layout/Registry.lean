import LinearLayout.Proofs.Layout.Effects
import LinearLayout.Proofs.Layout.Names

/-!
# The registry of a layout

Five tables of a layout speak of the same constraints: the entities, the active constraints, the
lists of the owners, the system marks and the pins.  They are edited one after the other, so each
agreement between them is a property of its own, with one lemma for every writer.

What ties the tables together is that a name stands for one owner and one list of items.  The names
in use are therefore a parameter of these properties.

A system mark can outlive its constraint: when an edit puts another constraint in the place of a
marked one, the mark stays behind.  Which marks may have gone stale in this way is a parameter too.
-/

namespace LinearLayout

namespace Layout

variable {K : Type} [Scalar K] {l : Layout K} {names later : Names} {id : ConstraintId}
  {c : Constraint K} {e : Entity} {stale due due' : ConstraintId → Prop}

/-- Active constraints are stored under their names, and are what their names stand for. -/
def Named (names : Names) (l : Layout K) : Prop :=
  ∀ id a, l.constraints.get? id = some a →
    a.constraint.id = id ∧ names id = some a.constraint.blueprint

/-- Active constraints speak of managed entities only. -/
def Closed (l : Layout K) : Prop :=
  ∀ id a, l.constraints.get? id = some a → ∀ e ∈ a.constraint.entities, l.isManaged e = true

/-- The list of an owner is in step with the table of constraints. -/
def Lists (l : Layout K) (e : Entity) : Prop :=
  l.ownedBy e = l.activeOf e

/-- Pinned variables belong to managed entities, and the names on record are names of pins. -/
def Pinned (names : Names) (l : Layout K) : Prop :=
  ∀ v id, l.pins.get? v = some id → l.isManaged v.entity = true ∧ names id = some (.pin v)

/-- A name is on record, as the pin of its variable or for the intrinsic size of its owner. -/
def Records (names : Names) (l : Layout K) (id : ConstraintId) : Prop :=
  ∃ b, names id = some b ∧
    ((∃ v, b = .pin v ∧ l.pins.get? v = some id) ∨ id ∈ l.sizeConstraintsOf b.owner)

/--
System constraints are active, and on record unless their record is still due; this is said of the
marks that have not gone stale.
-/
def Vouched (names : Names) (stale due : ConstraintId → Prop) (l : Layout K) : Prop :=
  ∀ id ∈ l.system.toList, ¬ stale id → l.isActive id = true ∧ (Records names l id ∨ due id)

/-- All tables of a layout agree, apart from stale marks and records that are still due. -/
structure Filed (names : Names) (stale due : ConstraintId → Prop) (l : Layout K) : Prop where
  named : Named names l
  closed : Closed l
  lists : ∀ e, Lists l e
  pinned : Pinned names l
  vouched : Vouched names stale due l

/-- All tables of a layout agree, apart from stale marks. -/
abbrev Settled (names : Names) (stale : ConstraintId → Prop) (l : Layout K) : Prop :=
  Filed names stale (fun _ => False) l

/-- All tables of a layout agree, whatever has become of the constraints behind the marks. -/
abbrev Registered (names : Names) (l : Layout K) : Prop :=
  Settled names (fun _ => True) l

theorem settled_new
    (names : Names) (stale : ConstraintId → Prop) (settings : Settings K) :
    Settled names stale (new settings) where
  named := fun _ _ h => nomatch h
  closed := fun _ _ h => nomatch h
  lists := fun _ => rfl
  pinned := fun _ _ h => nomatch h
  vouched := fun _ h => nomatch h

section Names

theorem Named.mono
    (h : Named names l)
    (hnames : names.Extends later) :
    Named later l :=
  fun id a ha => ⟨(h id a ha).1, hnames id _ (h id a ha).2⟩

theorem Pinned.mono
    (h : Pinned names l)
    (hnames : names.Extends later) :
    Pinned later l :=
  fun v id hv => ⟨(h v id hv).1, hnames id _ (h v id hv).2⟩

theorem Records.mono
    (h : Records names l id)
    (hnames : names.Extends later) :
    Records later l id := by
  obtain ⟨b, hb, hrecord⟩ := h
  exact ⟨b, hnames id b hb, hrecord⟩

theorem Vouched.mono
    (h : Vouched names stale due l)
    (hnames : names.Extends later) :
    Vouched later stale due l :=
  fun id hid hfresh =>
    ⟨(h id hid hfresh).1, (h id hid hfresh).2.imp_left fun hrecord => hrecord.mono hnames⟩

theorem Filed.mono
    (h : Filed names stale due l)
    (hnames : names.Extends later) :
    Filed later stale due l where
  named := h.named.mono hnames
  closed := h.closed
  lists := h.lists
  pinned := h.pinned.mono hnames
  vouched := h.vouched.mono hnames

theorem Vouched.imp
    (h : Vouched names stale due l)
    (hdue : ∀ id, due id → due' id) :
    Vouched names stale due' l :=
  fun id hid hfresh => ⟨(h id hid hfresh).1, (h id hid hfresh).2.imp_right (hdue id)⟩

theorem Filed.imp
    (h : Filed names stale due l)
    (hdue : ∀ id, due id → due' id) :
    Filed names stale due' l :=
  { h with vouched := h.vouched.imp hdue }

/-- Records that were due may meanwhile be made. -/
theorem Filed.settle
    (h : Filed names stale due l)
    (hdue : ∀ id, ¬ stale id → due id → Records names l id ∨ due' id) :
    Filed names stale due' l :=
  { h with
    vouched := fun id hid hfresh =>
      ⟨(h.vouched id hid hfresh).1, (h.vouched id hid hfresh).2.elim Or.inl (hdue id hfresh)⟩ }

/-- The name of an active constraint stands for the constraint that is active. -/
theorem Named.eq_of_get?
    (h : Named names l)
    {a : ActiveConstraint K}
    (ha : l.constraints.get? id = some a)
    {b : Blueprint}
    (hb : names id = some b) :
    a.constraint.blueprint = b :=
  Option.some.inj ((h id a ha).2.symm.trans hb)

end Names

section Reading

theorem active_eq_filter
    {m : Layout K} {p : Constraint K → Bool}
    (h : m.constraints = l.constraints.filter fun _ a => p a.constraint) :
    m.active = l.active.filter p := by
  rw [active, active, h, List.filter_map, OrderedMap.values, OrderedMap.values, List.filter_map]
  rfl

/-- The constraints of an owner, read through its list, are those of the table. -/
theorem Lists.constraintsOf_eq
    (h : Lists l e) :
    l.constraintsOf e = l.active.filter fun c => c.owner = e := by
  have hfilter : active { l with
      constraints := l.constraints.filter fun _ a => a.constraint.owner = e } =
        l.active.filter fun c => c.owner = e :=
    active_eq_filter rfl
  rw [constraintsOf, h, activeOf, ← hfilter, active, ← OrderedMap.filterMap_get?_keys_filter,
    List.map_filterMap]
  rfl

theorem Named.map_id_active
    (h : Named names l) :
    l.active.map Constraint.id = l.constraints.keys := by
  rw [active, List.map_map, OrderedMap.values, List.map_map, OrderedMap.keys]
  refine List.map_congr_left fun entry hentry => ?_
  exact (h entry.1 entry.2 (OrderedMap.get?_eq_some_iff.2 hentry)).1

theorem mem_active_iff :
    c ∈ l.active ↔ ∃ id a, l.constraints.get? id = some a ∧ a.constraint = c := by
  rw [active, OrderedMap.values, List.map_map, List.mem_map]
  constructor
  · rintro ⟨entry, hentry, rfl⟩
    exact ⟨entry.1, entry.2, OrderedMap.get?_eq_some_iff.2 hentry, rfl⟩
  · rintro ⟨id, a, ha, rfl⟩
    exact ⟨(id, a), OrderedMap.get?_eq_some_iff.1 ha, rfl⟩

/-- An entity that is not managed owns nothing. -/
theorem Filed.ownedBy_eq_nil
    (h : Filed names stale due l)
    (he : l.isManaged e = false) :
    l.ownedBy e = [] := by
  rw [h.lists e]
  refine List.eq_nil_iff_forall_not_mem.2 fun id hid => ?_
  obtain ⟨a, ha, howner⟩ := mem_activeOf_iff.1 hid
  have hmanaged := h.closed id a ha _ a.constraint.owner_mem_entities
  rw [howner, he] at hmanaged
  cases hmanaged

theorem Filed.constraintsOf_eq_nil
    (h : Filed names stale due l)
    (he : l.isManaged e = false) :
    l.constraintsOf e = [] := by
  rw [constraintsOf, h.ownedBy_eq_nil he]
  rfl

end Reading

section Congruence

variable {m : Layout K}

theorem Named.congr
    (h : Named names l)
    (hconstraints : m.constraints = l.constraints) :
    Named names m := by
  rw [Named, hconstraints]
  exact h

theorem Lists.congr
    (h : Lists l e)
    (hconstraints : m.constraints = l.constraints)
    (howned : m.ownedBy e = l.ownedBy e) :
    Lists m e := by
  rw [Lists, howned, activeOf, hconstraints]
  exact h

theorem records_congr
    (hpins : m.pins = l.pins)
    (hentities : m.entities = l.entities) :
    Records names m id ↔ Records names l id := by
  rw [Records, Records, hpins]
  simp only [sizeConstraintsOf, hentities]

end Congruence

section Remove

theorem Named.without
    (h : Named names l)
    (id : ConstraintId) :
    Named names (l.without id) := by
  intro i a ha
  rw [constraints_without, OrderedMap.get?_erase] at ha
  split at ha
  · cases ha
  · exact h i a ha

theorem Closed.without
    (h : Closed l)
    (id : ConstraintId) :
    Closed (l.without id) := by
  intro i a ha e he
  rw [constraints_without, OrderedMap.get?_erase] at ha
  split at ha
  · cases ha
  · rw [isManaged, entities_without]
    exact h i a ha e he

theorem activeOf_without
    (l : Layout K) (id : ConstraintId) (e : Entity) :
    (l.without id).activeOf e = (l.activeOf e).erase id := by
  rw [activeOf, constraints_without, OrderedMap.filter_erase, OrderedMap.keys_erase]
  rfl

theorem Lists.without
    (h : Lists l e)
    (id : ConstraintId) :
    Lists (l.without id) e := by
  have howner : ∀ a, l.constraints.get? id = some a → id ∈ l.ownedBy e →
      a.constraint.owner = e := by
    intro a ha hid
    rw [h] at hid
    obtain ⟨b, hb, howner⟩ := mem_activeOf_iff.1 hid
    exact Option.some.inj (ha.symm.trans hb) ▸ howner
  rw [Lists, ownedBy_without howner, activeOf_without]
  by_cases hactive : l.isActive id = true
  · rw [if_pos hactive, h]
  · have hid : id ∉ l.activeOf e := fun hid => by
      obtain ⟨a, ha, _⟩ := mem_activeOf_iff.1 hid
      exact hactive (isActive_iff.2 ⟨a, ha⟩)
    rw [if_neg hactive, List.erase_of_not_mem hid, h]

theorem Pinned.without
    (h : Pinned names l)
    (id : ConstraintId) :
    Pinned names (l.without id) := by
  intro v i hv
  rw [pins_without] at hv
  rw [isManaged, entities_without]
  exact h v i hv

theorem records_without
    (i : ConstraintId) :
    Records names (l.without id) i ↔ Records names l i :=
  records_congr pins_without entities_without

theorem Named.remove
    (h : Named names l)
    (id : ConstraintId) :
    Named names (l.remove id).2 := by
  rw [remove_snd]
  exact Named.without (l := l.unmarkSystem id) h id

theorem Closed.remove
    (h : Closed l)
    (id : ConstraintId) :
    Closed (l.remove id).2 := by
  rw [remove_snd]
  exact Closed.without (l := l.unmarkSystem id) h id

theorem Lists.remove
    (h : Lists l e)
    (id : ConstraintId) :
    Lists (l.remove id).2 e := by
  rw [remove_snd]
  exact Lists.without (l := l.unmarkSystem id) h id

theorem Pinned.remove
    (h : Pinned names l)
    (id : ConstraintId) :
    Pinned names (l.remove id).2 := by
  rw [remove_snd]
  exact Pinned.without (l := l.unmarkSystem id) h id

/-- A removal settles what is due for the constraint that goes. -/
theorem Vouched.remove
    (h : Vouched names stale due l)
    (id : ConstraintId) :
    Vouched names stale (fun i => due i ∧ i ≠ id) (l.remove id).2 := by
  intro i hi hfresh
  rw [system_remove, OrderedSet.mem_toList_erase] at hi
  obtain ⟨hne, hi⟩ := hi
  obtain ⟨hactive, hrecord⟩ := h i hi hfresh
  refine ⟨?_, ?_⟩
  · obtain ⟨a, ha⟩ := isActive_iff.1 hactive
    refine isActive_iff.2 ⟨a, ?_⟩
    rw [constraints_remove, OrderedMap.get?_erase, if_neg hne, ha]
  · rw [remove_snd, records_without]
    exact hrecord.imp_right fun hdue => ⟨hdue, hne⟩

theorem Filed.remove
    (h : Filed names stale due l)
    (id : ConstraintId) :
    Filed names stale (fun i => due i ∧ i ≠ id) (l.remove id).2 where
  named := h.named.remove id
  closed := h.closed.remove id
  lists := fun e => (h.lists e).remove id
  pinned := h.pinned.remove id
  vouched := h.vouched.remove id

theorem Vouched.removeAll
    (h : Vouched names stale due l)
    (ids : List ConstraintId) :
    Vouched names stale (fun i => due i ∧ i ∉ ids) (l.removeAll ids) := by
  induction ids generalizing l due with
  | nil =>
      exact h.imp fun _ hdue => ⟨hdue, List.not_mem_nil⟩
  | cons id ids ih =>
      refine (ih (h.remove id)).imp fun i hdue => ⟨hdue.1.1, ?_⟩
      rw [List.mem_cons, not_or]
      exact ⟨hdue.1.2, hdue.2⟩

theorem Named.removeAll
    (h : Named names l)
    (ids : List ConstraintId) :
    Named names (l.removeAll ids) :=
  removeAll_induction (P := Named names) (fun _ id hu => hu.remove id) h ids

theorem Lists.removeAll
    (h : Lists l e)
    (ids : List ConstraintId) :
    Lists (l.removeAll ids) e :=
  removeAll_induction (P := (Lists · e)) (fun _ id hu => hu.remove id) h ids

theorem Pinned.removeAll
    (h : Pinned names l)
    (ids : List ConstraintId) :
    Pinned names (l.removeAll ids) :=
  removeAll_induction (P := Pinned names) (fun _ id hu => hu.remove id) h ids

theorem Filed.removeAll
    (h : Filed names stale due l)
    (ids : List ConstraintId) :
    Filed names stale (fun i => due i ∧ i ∉ ids) (l.removeAll ids) where
  named := h.named.removeAll ids
  closed := removeAll_induction (P := Closed) (fun _ id hu => hu.remove id) h.closed ids
  lists := fun e => (h.lists e).removeAll ids
  pinned := h.pinned.removeAll ids
  vouched := h.vouched.removeAll ids

/-- Whatever is removed, no active constraint is left that speaks of foreign entities. -/
theorem closed_dropForeign
    (l : Layout K) :
    Closed l.dropForeign := by
  intro id a ha e he
  obtain ⟨_, hmanaged⟩ := get?_constraints_dropForeign.1 ha
  rw [isManaged, dropForeign, entities_removeAll]
  exact isManaged_of_unmanaged?_eq_none hmanaged he

/-- Once the foreign constraints are gone, the other agreements are all that is needed. -/
theorem filed_dropForeign
    (hnamed : Named names l)
    (hlists : ∀ e, Lists l e)
    (hpinned : Pinned names l)
    (hvouched : Vouched names stale due l) :
    Filed names stale due l.dropForeign where
  named := hnamed.removeAll _
  closed := closed_dropForeign l
  lists := fun e => (hlists e).removeAll _
  pinned := hpinned.removeAll _
  vouched := (hvouched.removeAll _).imp fun _ hdue => hdue.1

end Remove

section Install

variable {keys : List EquationKey} {s : Solver K}

theorem get?_constraints_enforced
    (i : ConstraintId) :
    (l.enforced c keys s).constraints.get? i =
      if i = c.id then some ⟨c, keys⟩ else l.constraints.get? i :=
  OrderedMap.get?_insert _ _ _ _

theorem isActive_enforced_self :
    (l.enforced c keys s).isActive c.id = true :=
  isActive_iff.2 ⟨_, (get?_constraints_enforced c.id).trans (if_pos rfl)⟩

theorem isActive_enforced
    (h : l.isActive id = true) :
    (l.enforced c keys s).isActive id = true := by
  by_cases hid : id = c.id
  · rw [hid]
    exact isActive_enforced_self
  · obtain ⟨a, ha⟩ := isActive_iff.1 h
    exact isActive_iff.2 ⟨a, (get?_constraints_enforced id).trans ((if_neg hid).trans ha)⟩

theorem Named.enforced
    (h : Named names l)
    (hc : names c.id = some c.blueprint) :
    Named names (l.enforced c keys s) := by
  intro i a ha
  rw [get?_constraints_enforced] at ha
  split at ha
  · next hi =>
    cases ha
    exact ⟨hi.symm, hi ▸ hc⟩
  · exact h i a ha

theorem Closed.enforced
    (h : Closed l)
    (hmanaged : l.unmanaged? c = none) :
    Closed (l.enforced c keys s) := by
  intro i a ha e he
  rw [get?_constraints_enforced] at ha
  split at ha
  · cases ha
    exact isManaged_of_unmanaged?_eq_none hmanaged he
  · exact h i a ha e he

/-- The constraint is listed last, or keeps its place if it was active before. -/
theorem activeOf_enforced
    (h : Named names l)
    (hc : names c.id = some c.blueprint)
    (e : Entity) :
    (l.enforced c keys s).activeOf e =
      if e = c.owner ∧ c.id ∉ l.activeOf e then l.activeOf e ++ [c.id] else l.activeOf e := by
  cases hid : l.constraints.get? c.id with
  | none =>
      have hnew : c.id ∉ l.activeOf e := fun hmem => by
        obtain ⟨a, ha, _⟩ := mem_activeOf_iff.1 hmem
        exact nomatch hid.symm.trans ha
      rw [activeOf, Layout.enforced,
        OrderedMap.keys_filter_insert_of_not_mem _ (OrderedMap.get?_eq_none_iff.1 hid)]
      by_cases he : e = c.owner
      · simp only [he.symm, decide_true, if_true]
        rw [if_pos ⟨trivial, he ▸ hnew⟩]
        rfl
      · simp only [Ne.symm he, decide_false, if_false, Bool.false_eq_true, List.append_nil]
        rw [if_neg fun h => he h.1]
        rfl
  | some a =>
      have howner : c.owner = a.constraint.owner :=
        (Constraint.owner_eq_of_blueprint (h.eq_of_get? hid hc)).symm
      have hsame : (l.enforced c keys s).activeOf e = l.activeOf e := by
        rw [activeOf, Layout.enforced,
          OrderedMap.keys_filter_insert_of_get? _ hid (by simp only [howner])]
        rfl
      rw [hsame, if_neg]
      rintro ⟨he, hnew⟩
      exact hnew (mem_activeOf_iff.2 ⟨a, hid, howner.symm.trans he.symm⟩)

theorem Lists.enforced
    (h : Lists l e)
    (hnamed : Named names l)
    (hc : names c.id = some c.blueprint) :
    Lists (l.enforced c keys s) e := by
  rw [Lists, ownedBy_enforced, activeOf_enforced hnamed hc, h]

theorem Vouched.enforced
    (h : Vouched names stale due l) :
    Vouched names stale due (l.enforced c keys s) :=
  fun i hi hfresh => ⟨isActive_enforced (h i hi hfresh).1, (h i hi hfresh).2⟩

/-- Nothing in the registry depends on the solver. -/
theorem Filed.withSolver
    (h : Filed names stale due l)
    (s : Solver K) :
    Filed names stale due { l with solver := s } :=
  ⟨h.named, h.closed, h.lists, h.pinned, h.vouched⟩

/-- Nothing in the registry depends on the sizes that have to be measured. -/
theorem Filed.withNecessity
    (h : Filed names stale due l)
    (n : Necessity) :
    Filed names stale due { l with necessity := n } :=
  ⟨h.named, h.closed, h.lists, h.pinned, h.vouched⟩

theorem Filed.enforced
    (h : Filed names stale due l)
    (hc : names c.id = some c.blueprint)
    (hmanaged : l.unmanaged? c = none) :
    Filed names stale due (l.enforced c keys s) where
  named := h.named.enforced hc
  closed := h.closed.enforced hmanaged
  lists := fun e => (h.lists e).enforced h.named hc
  pinned := h.pinned
  vouched := h.vouched.enforced

theorem Filed.install
    (h : Filed names stale due l)
    (hc : names c.id = some c.blueprint) :
    Filed names stale due (l.install c).2 := by
  rcases install_cases l c with ⟨_, s, heq, _⟩ | ⟨_, s, heq, hmanaged, _⟩
  · rw [heq]
    exact h.withSolver s
  · rw [heq]
    exact h.enforced hc hmanaged

/-- A constraint may be marked once it is in force; its record is due. -/
theorem Filed.markSystem
    (h : Filed names stale due l)
    (hactive : l.isActive id = true) :
    Filed names stale (fun i => due i ∨ i = id) (l.markSystem id) where
  named := h.named
  closed := h.closed
  lists := h.lists
  pinned := h.pinned
  vouched := by
    intro i hi hfresh
    rcases OrderedSet.mem_toList_insert.1 hi with hi | rfl
    · exact ⟨(h.vouched i hi hfresh).1, (h.vouched i hi hfresh).2.imp_right Or.inl⟩
    · exact ⟨hactive, Or.inr (Or.inr rfl)⟩

theorem Settled.add
    (h : Settled names stale l)
    (hc : names c.id = some c.blueprint) :
    Settled names stale (l.add c).2 := by
  unfold Layout.add
  split
  · exact h
  · exact h.install hc

theorem Named.of_constraint?
    (h : Named names l)
    (hc : l.constraint? id = some c) :
    c.id = id ∧ names id = some c.blueprint := by
  obtain ⟨a, ha, rfl⟩ := Option.map_eq_some_iff.1 hc
  exact h id a ha

theorem Named.id_of_revalues
    {edit : Constraint K → Constraint K}
    (h : Named names l)
    (hedit : Constraint.Revalues edit)
    (hc : l.constraint? id = some c) :
    (edit c).id = id :=
  (hedit.id c).trans (h.of_constraint? hc).1

theorem Named.names_of_revalues
    {edit : Constraint K → Constraint K}
    (h : Named names l)
    (hedit : Constraint.Revalues edit)
    (hc : l.constraint? id = some c) :
    names (edit c).id = some (edit c).blueprint := by
  rw [h.id_of_revalues hedit hc, hedit.blueprint, (h.of_constraint? hc).2]

/-- The edited constraint speaks of the entities that it spoke of, and all of them are managed. -/
theorem Closed.unmanaged?_edit
    (h : Closed l)
    (hc : l.constraint? id = some c)
    (edit : Edit K) :
    (l.without id).unmanaged? (c.edit edit) = none := by
  obtain ⟨a, ha, rfl⟩ := Option.map_eq_some_iff.1 hc
  rw [unmanaged?_congr entities_without]
  exact unmanaged?_eq_none_iff.2 (h id a ha)

theorem isActive_without
    {i : ConstraintId}
    (h : l.isActive i = true)
    (hne : i ≠ id) :
    (l.without id).isActive i = true := by
  obtain ⟨a, ha⟩ := isActive_iff.1 h
  refine isActive_iff.2 ⟨a, ?_⟩
  rw [constraints_without, OrderedMap.get?_erase, if_neg hne, ha]

theorem not_isActive_without
    {i : ConstraintId}
    (h : i = id ∨ l.isActive i = false) :
    (l.without id).isActive i = false := by
  rcases h with rfl | h
  · exact isActive_without_self l i
  · rw [Bool.eq_false_iff] at h ⊢
    intro hactive
    obtain ⟨a, ha⟩ := isActive_iff.1 hactive
    rw [constraints_without, OrderedMap.get?_erase] at ha
    split at ha
    · cases ha
    · exact h (isActive_iff.2 ⟨a, ha⟩)

/--
Whatever an edit puts in the place of a constraint, the tables agree on it if it is what its name
stands for.  The mark of the constraint goes stale if its name is another one.
-/
theorem Settled.update
    {edit : Constraint K → Constraint K}
    (h : Settled names stale l)
    (hnames : ∀ c, l.constraint? id = some c → names (edit c).id = some (edit c).blueprint)
    (hmark : id ∈ l.system.toList → ¬ stale id →
      ∀ c, l.constraint? id = some c → (edit c).id = id) :
    Settled names stale (l.update id edit).2 := by
  rcases update_cases l id edit with ⟨_, heq⟩ | ⟨c, hc, ⟨keys, s, heq, hmanaged⟩ | ⟨cause, s, heq⟩⟩
  · rw [heq]
    exact h
  · rw [heq]
    refine ⟨(h.named.without id).enforced (hnames c hc), (h.closed.without id).enforced hmanaged,
      fun e => ((h.lists e).without id).enforced (h.named.without id) (hnames c hc),
      h.pinned.without id, fun i hi hfresh => ?_⟩
    simp only [Layout.enforced, system_without] at hi
    obtain ⟨hactive, hrecord⟩ := h.vouched i hi hfresh
    refine ⟨?_, hrecord.imp_left (records_without i).2⟩
    by_cases hne : i = id
    · subst hne
      have hedited : ((l.without i).enforced (edit c) keys s).isActive (edit c).id = true :=
        isActive_enforced_self
      rwa [hmark hi hfresh c hc] at hedited
    · exact isActive_enforced (isActive_without hactive hne)
  · rw [heq]
    refine ⟨h.named.without id, h.closed.without id, fun e => (h.lists e).without id,
      h.pinned.without id, fun i hi hfresh => ?_⟩
    simp only [unmarkSystem, system_without, OrderedSet.mem_toList_erase] at hi
    obtain ⟨hactive, hrecord⟩ := h.vouched i hi.2 hfresh
    exact ⟨isActive_without hactive hi.1, hrecord.imp_left (records_without i).2⟩

/-- A constraint with new values keeps its name, so its old record is good for the new one. -/
theorem Settled.revalue
    {edit : Constraint K → Constraint K}
    (h : Settled names stale l)
    (hedit : Constraint.Revalues edit)
    (id : ConstraintId) :
    Settled names stale (l.update id edit).2 :=
  h.update (fun _ hc => h.named.names_of_revalues hedit hc)
    fun _ _ _ hc => h.named.id_of_revalues hedit hc

end Install

end Layout
end LinearLayout
