import LinearLayout.Proofs.Layout.Partition

/-!
# Joins are unions

After a join every constraint of the other layout is accounted for: it is in force with its mark, it
is listed as refused, or it stood for something that the receiver has already.  The constraints are
installed one after the other, and each of them touches its own name only.
-/

namespace LinearLayout
namespace Layout

variable {K : Type} [Scalar K] {l other : Layout K} {names : Names} {id : ConstraintId}
  {c : Constraint K} {e : Entity}

section Entities

/-- An entity that is new to the receiver goes to the end of its entities. -/
theorem managed_joinEntity
    {entries : List (Entity × ManagedEntity K)} {acc : List ConstraintId × Layout K}
    {entry : Entity × ManagedEntity K}
    (h : Adopted l entries acc)
    (hnew : entry.1 ∉ entries.map Prod.fst) :
    (joinEntity acc entry).2.managed =
      acc.2.managed ++ [entry.1].filter fun e => !l.isManaged e := by
  have hknown : acc.2.isManaged entry.1 = l.isManaged entry.1 :=
    Bool.eq_iff_iff.2 ((h.managed entry.1).trans (or_iff_left hnew))
  unfold joinEntity
  cases hmanaged : l.isManaged entry.1 with
  | true =>
      rw [hknown, hmanaged, if_pos rfl]
      simp [hmanaged]
  | false =>
      have hkeys : entry.1 ∉ acc.2.entities.keys := fun hmem => by
        rw [hmanaged] at hknown
        exact Bool.false_ne_true (hknown.symm.trans (OrderedMap.contains_eq_true.2 hmem))
      rw [hknown, hmanaged, if_neg Bool.false_ne_true, managed, entities_adopt,
        OrderedMap.keys_insert_of_not_mem _ hkeys]
      simp [managed, hmanaged]

theorem managed_joinEntities
    (l other : Layout K) :
    (l.joinEntities other).2.managed =
      l.managed ++ other.managed.filter fun e => !l.isManaged e := by
  have hfold : ∀ entries : List (Entity × ManagedEntity K), (entries.map Prod.fst).Nodup →
      (entries.foldl joinEntity ([], l)).2.managed =
        l.managed ++ (entries.map Prod.fst).filter fun e => !l.isManaged e := by
    intro entries hnodup
    induction entries using List.reverseRecOn with
    | nil =>
        simp
    | append_singleton entries entry ih =>
        rw [List.map_append, List.nodup_append] at hnodup
        have hnew : entry.1 ∉ entries.map Prod.fst := fun hmem =>
          hnodup.2.2 _ hmem _ (List.mem_map_of_mem List.mem_cons_self) rfl
        rw [List.foldl_append, List.foldl_cons, List.foldl_nil,
          managed_joinEntity (adopted_foldl l hnodup.1) hnew, ih hnodup.1, List.map_append,
          List.filter_append, List.append_assoc]
        rfl
  exact hfold other.entities.entries other.entities.nodup_keys

/-- The receiver keeps its sizes and takes over those of the entities that are new to it. -/
theorem kept_joinEntities
    (l other : Layout K) (e : Entity) :
    ((l.joinEntities other).2.entities.get? e).map ManagedEntity.kept =
      if l.isManaged e then (l.entities.get? e).map ManagedEntity.kept
      else (other.entities.get? e).map ManagedEntity.kept := by
  have hadopted := adopted_joinEntities l other
  split
  · next hknown => rw [hadopted.known e hknown]
  · next hunknown =>
    rw [Bool.not_eq_true] at hunknown
    cases hr : other.entities.get? e with
    | some r =>
        exact hadopted.adopted (e, r) (OrderedMap.get?_eq_some_iff.1 hr) hunknown
    | none =>
        have hforeign : (l.joinEntities other).2.isManaged e = false := by
          rw [Bool.eq_false_iff, Ne, hadopted.managed, hunknown]
          rintro (hknown | hmem)
          · cases hknown
          · exact OrderedMap.get?_eq_none_iff.1 hr hmem
        rw [isManaged, OrderedMap.contains, Option.isSome_eq_false_iff,
          Option.isNone_iff_eq_none] at hforeign
        rw [hforeign]

end Entities

section Superseded

/-- A constraint of the other layout stands for a size or a pin that the receiver has already. -/
def Discards (l other : Layout K) (id : ConstraintId) : Prop :=
  (∃ e r axis, l.isManaged e = true ∧ other.entities.get? e = some r ∧
    id ∈ r.sizeConstraints.get axis) ∨
    ∃ v, l.pins.contains v = true ∧ other.pins.get? v = some id

theorem mem_superseded_iff :
    id ∈ l.superseded other ↔ l.Discards other id := by
  have hadopted := adopted_joinEntities l other
  rw [superseded, List.mem_append, hadopted.superseded]
  refine or_congr ?_ ?_
  · constructor
    · rintro ⟨entry, hentry, hknown, hid⟩
      obtain ⟨axis, hid⟩ := PerAxis.mem_flatten_toList.1 hid
      exact ⟨entry.1, entry.2, axis, hknown, OrderedMap.get?_eq_some_iff.2 hentry, hid⟩
    · rintro ⟨e, r, axis, hknown, hr, hid⟩
      exact ⟨(e, r), OrderedMap.get?_eq_some_iff.1 hr, hknown,
        PerAxis.mem_flatten_toList.2 ⟨axis, hid⟩⟩
  · constructor
    · intro hid
      obtain ⟨pin, hpin, rfl⟩ := List.mem_map.1 hid
      obtain ⟨hentry, hpinned⟩ := List.mem_filter.1 hpin
      exact ⟨pin.1, hpinned, OrderedMap.get?_eq_some_iff.2 hentry⟩
    · rintro ⟨v, hpinned, hv⟩
      exact List.mem_map.2
        ⟨(v, id), List.mem_filter.2 ⟨OrderedMap.get?_eq_some_iff.1 hv, hpinned⟩, rfl⟩

end Superseded

section Constraints

variable {superseded : List ConstraintId} {acc : List ConstraintId × Layout K}
  {entry : ConstraintId × ActiveConstraint K} {entries : List (ConstraintId × ActiveConstraint K)}

/-- What has become of a constraint of the other layout. -/
inductive Fate (l other : Layout K) (superseded : List ConstraintId)
    (entry : ConstraintId × ActiveConstraint K) (acc : List ConstraintId × Layout K) : Prop
  | discarded
      (mem : entry.1 ∈ superseded)
      (unlisted : entry.1 ∉ acc.1)
      (same : acc.2.constraints.get? entry.1 = l.constraints.get? entry.1)
      (mark : entry.1 ∈ acc.2.system.toList ↔ entry.1 ∈ l.system.toList)
  | refused
      (not_mem : entry.1 ∉ superseded)
      (listed : entry.1 ∈ acc.1)
      (same : acc.2.constraints.get? entry.1 = l.constraints.get? entry.1)
      (mark : entry.1 ∈ acc.2.system.toList ↔ entry.1 ∈ l.system.toList)
  | enforced
      (not_mem : entry.1 ∉ superseded)
      (unlisted : entry.1 ∉ acc.1)
      (constraint : acc.2.constraint? entry.1 = some entry.2.constraint)
      (mark : entry.1 ∈ acc.2.system.toList ↔
        entry.1 ∈ other.system.toList ∨ entry.1 ∈ l.system.toList)

/-- Two stages of a join say the same of a name. -/
structure SameOf (id : ConstraintId) (before after : List ConstraintId × Layout K) : Prop where
  listed : id ∈ after.1 ↔ id ∈ before.1
  constraints : after.2.constraints.get? id = before.2.constraints.get? id
  system : id ∈ after.2.system.toList ↔ id ∈ before.2.system.toList

theorem SameOf.refl
    (id : ConstraintId) (acc : List ConstraintId × Layout K) :
    SameOf id acc acc :=
  ⟨Iff.rfl, rfl, Iff.rfl⟩

theorem SameOf.trans
    {before after last : List ConstraintId × Layout K}
    (h : SameOf id before after)
    (hlast : SameOf id after last) :
    SameOf id before last :=
  ⟨hlast.listed.trans h.listed, hlast.constraints.trans h.constraints,
    hlast.system.trans h.system⟩

theorem Fate.congr
    {after : List ConstraintId × Layout K}
    (h : Fate l other superseded entry acc)
    (hsame : SameOf entry.1 acc after) :
    Fate l other superseded entry after := by
  cases h with
  | discarded mem unlisted same mark =>
      exact .discarded mem (unlisted ∘ hsame.listed.1) (hsame.constraints.trans same)
        (hsame.system.trans mark)
  | refused not_mem listed same mark =>
      exact .refused not_mem (hsame.listed.2 listed) (hsame.constraints.trans same)
        (hsame.system.trans mark)
  | enforced not_mem unlisted constraint mark =>
      refine .enforced not_mem (unlisted ∘ hsame.listed.1) ?_ (hsame.system.trans mark)
      rw [constraint?_congr hsame.constraints]
      exact constraint

/-- A constraint that comes touches its own name only. -/
theorem sameOf_joinConstraint
    (hid : entry.2.constraint.id = entry.1)
    (hne : id ≠ entry.1) :
    SameOf id acc (joinConstraint other superseded acc entry) := by
  rcases joinConstraint_cases other superseded acc entry with
    ⟨_, heq⟩ | ⟨_, s, heq, _⟩ | ⟨_, keys, s, _, _, heq⟩
  · rw [heq]
    exact .refl id acc
  · rw [heq]
    exact ⟨by simp [hne], rfl, Iff.rfl⟩
  · have hother : (acc.2.enforced entry.2.constraint keys s).constraints.get? id =
        acc.2.constraints.get? id := (get?_constraints_enforced id).trans (if_neg (hid ▸ hne))
    rw [heq]
    refine ⟨Iff.rfl, ?_, ?_⟩
    · dsimp only
      split <;> exact hother
    · dsimp only
      split
      · exact OrderedSet.mem_toList_insert.trans (or_iff_left hne)
      · exact Iff.rfl

/-- The step of a join: the constraint that comes meets one of the three fates. -/
theorem fate_joinConstraint
    (hid : entry.2.constraint.id = entry.1)
    (hfresh : SameOf entry.1 ([], l) acc) :
    Fate l other superseded entry (joinConstraint other superseded acc entry) := by
  have hunlisted : entry.1 ∉ acc.1 := fun hmem => List.not_mem_nil (hfresh.listed.1 hmem)
  rcases joinConstraint_cases other superseded acc entry with
    ⟨hmem, heq⟩ | ⟨hmem, s, heq, _⟩ | ⟨hmem, keys, s, _, _, heq⟩
  · rw [heq]
    exact .discarded hmem hunlisted hfresh.constraints hfresh.system
  · rw [heq]
    exact .refused hmem (List.mem_append_right _ List.mem_cons_self) hfresh.constraints
      hfresh.system
  · have hforce : (acc.2.enforced entry.2.constraint keys s).constraint? entry.1 =
        some entry.2.constraint := constraint?_enforced keys s hid
    have hmarks : entry.1 ∈ (acc.2.enforced entry.2.constraint keys s).system.toList ↔
        entry.1 ∈ l.system.toList := hfresh.system
    rw [heq]
    refine .enforced hmem hunlisted ?_ ?_
    · dsimp only
      split <;> exact hforce
    · dsimp only
      split
      · next hmark => simp [markSystem, OrderedSet.contains_eq_true.1 hmark]
      · next hmark =>
        rw [OrderedSet.contains_eq_true] at hmark
        rw [hmarks, or_iff_right hmark]

/-- Some constraints of the other layout have come, and no other name was touched. -/
structure Merged (l other : Layout K) (superseded : List ConstraintId)
    (entries : List (ConstraintId × ActiveConstraint K)) (acc : List ConstraintId × Layout K) :
    Prop where
  listed : acc.1.Sublist (entries.map Prod.fst)
  fates : ∀ entry ∈ entries, Fate l other superseded entry acc
  untouched : ∀ id ∉ entries.map Prod.fst, SameOf id ([], l) acc

theorem joinConstraint_sublist :
    (joinConstraint other superseded acc entry).1.Sublist (acc.1 ++ [entry.1]) := by
  rcases joinConstraint_cases other superseded acc entry with
    ⟨_, heq⟩ | ⟨_, s, heq, _⟩ | ⟨_, keys, s, _, _, heq⟩
  · rw [heq]
    exact List.sublist_append_left _ _
  · rw [heq]
  · rw [heq]
    exact List.sublist_append_left _ _

/-- The run of a join: the constraints that have come, each under its own name. -/
theorem merged_foldl
    {m : Layout K}
    (hstart : ∀ id, SameOf id ([], l) ([], m))
    (hnodup : (entries.map Prod.fst).Nodup)
    (hids : ∀ entry ∈ entries, entry.2.constraint.id = entry.1) :
    Merged l other superseded entries
      (entries.foldl (joinConstraint other superseded) ([], m)) := by
  induction entries using List.reverseRecOn with
  | nil =>
      exact ⟨List.Sublist.refl _, nofun, fun id _ => hstart id⟩
  | append_singleton entries entry ih =>
      rw [List.map_append, List.nodup_append] at hnodup
      have hnew : entry.1 ∉ entries.map Prod.fst := fun hmem =>
        hnodup.2.2 _ hmem _ (List.mem_map_of_mem List.mem_cons_self) rfl
      have hid := hids entry (List.mem_append_right _ List.mem_cons_self)
      have hmerged := ih hnodup.1 fun x hx => hids x (List.mem_append_left _ hx)
      rw [List.foldl_append, List.foldl_cons, List.foldl_nil]
      refine ⟨?_, fun x hx => ?_, fun id hmem => ?_⟩
      · rw [List.map_append]
        exact joinConstraint_sublist.trans (hmerged.listed.append_right _)
      · rcases List.mem_append.1 hx with hx | hx
        · have hne : x.1 ≠ entry.1 := fun heq => hnew (heq ▸ List.mem_map_of_mem hx)
          exact (hmerged.fates x hx).congr (sameOf_joinConstraint hid hne)
        · rw [List.mem_singleton.1 hx]
          exact fate_joinConstraint hid (hmerged.untouched entry.1 hnew)
      · rw [List.map_append, List.mem_append, not_or] at hmem
        have hne : id ≠ entry.1 := fun heq => hmem.2 (heq ▸ List.mem_cons_self)
        exact (hmerged.untouched id hmem.1).trans (sameOf_joinConstraint hid hne)

/-- What became of the constraints of the other layout, and that no other name was touched. -/
theorem Named.merged_join
    (h : Named names other) :
    Merged l other (l.superseded other) other.constraints.entries (l.join other) := by
  have hadopted := adopted_joinEntities l other
  have hstart : ∀ id, SameOf id ([], l) ([], (l.joinEntities other).2) := fun id =>
    ⟨Iff.rfl, by rw [hadopted.constraints], by rw [hadopted.system]⟩
  have hmerged : Merged l other (l.superseded other) other.constraints.entries
      ((l.joinEntities other).2.joinConstraints other (l.superseded other)) :=
    merged_foldl hstart other.constraints.nodup_keys fun entry hentry =>
      (h entry.1 entry.2 (OrderedMap.get?_eq_some_iff.2 hentry)).1
  obtain ⟨pins, heq, _⟩ := joinPins_eq (l.newPins other).nodup_keys
    ((l.joinEntities other).2.joinConstraints other (l.superseded other)).2
  -- the pins that come last change neither constraints nor marks
  have hpins : ∀ id, SameOf id
      ((l.joinEntities other).2.joinConstraints other (l.superseded other)) (l.join other) := by
    intro id
    rw [join_eq, heq]
    exact ⟨Iff.rfl, rfl, Iff.rfl⟩
  exact ⟨hmerged.listed, fun entry hentry => (hmerged.fates entry hentry).congr (hpins entry.1),
    fun id hid => (hmerged.untouched id hid).trans (hpins id)⟩

end Constraints

section Union

/-- The pins of the other layout come last and leave the entities alone. -/
theorem entities_join
    (l other : Layout K) :
    (l.join other).2.entities = (l.joinEntities other).2.entities := by
  obtain ⟨pins, heq, _⟩ := joinPins_eq (l.newPins other).nodup_keys
    ((l.joinEntities other).2.joinConstraints other (l.superseded other)).2
  rw [join_eq, heq]
  exact entities_foldl_joinConstraint

/-- Two layouts in one: the receiver is as it was, and all of the other is accounted for. -/
structure Union (l other : Layout K) (rejected : List ConstraintId) (joined : Layout K) : Prop where
  managed : joined.managed = l.managed ++ other.managed.filter fun e => !l.isManaged e
  kept : ∀ id c, l.constraint? id = some c →
    joined.constraint? id = some c ∧ (id ∈ joined.system.toList ↔ id ∈ l.system.toList)
  /--
  Every constraint of the other is in force, listed as refused, or discarded.  In force it has the
  mark that it had there, and also one that a constraint of its name has left behind here.
  -/
  accounted : ∀ id c, other.constraint? id = some c →
    (¬ l.Discards other id ∧ id ∉ rejected ∧ joined.constraint? id = some c ∧
        (id ∈ joined.system.toList ↔ id ∈ l.system.toList ∨ id ∈ other.system.toList)) ∨
      (¬ l.Discards other id ∧ id ∈ rejected ∧ joined.constraint? id = none) ∨
      (l.Discards other id ∧ id ∉ rejected ∧ joined.constraint? id = none)
  rejected_sublist : rejected.Sublist other.constraints.keys
  old : ∀ id, joined.isActive id = true → l.isActive id = true ∨ other.isActive id = true
  /-- Intrinsic sizes and the names of the constraints made from them. -/
  sizes : ∀ e, (joined.entities.get? e).map ManagedEntity.kept =
    if l.isManaged e then (l.entities.get? e).map ManagedEntity.kept
    else (other.entities.get? e).map ManagedEntity.kept

theorem Named.union
    (hother : Named names other)
    (hapart : ∀ id, l.isActive id = true → other.isActive id = false) :
    Union l other (l.join other).1 (l.join other).2 := by
  have hmerged := hother.merged_join (l := l)
  have hkeys : ∀ id, id ∈ other.constraints.entries.map Prod.fst ↔ other.isActive id = true :=
    fun id => OrderedMap.contains_eq_true.symm
  refine ⟨?_, fun id c hc => ?_, fun id c hc => ?_, hmerged.listed, fun id hactive => ?_,
    fun e => ?_⟩
  · rw [managed, entities_join]
    exact managed_joinEntities l other
  · have hsame := hmerged.untouched id fun hmem => by
      rw [hkeys, hapart id (isActive_of_constraint? hc)] at hmem
      cases hmem
    rw [constraint?_congr hsame.constraints]
    exact ⟨hc, hsame.system⟩
  · obtain ⟨a, ha, rfl⟩ := Option.map_eq_some_iff.1 hc
    have hforeign : l.isActive id = false := Bool.eq_false_iff.2 fun hactive => by
      have hother := hapart id hactive
      rw [isActive_iff.2 ⟨a, ha⟩] at hother
      cases hother
    have hfate := hmerged.fates (id, a) (OrderedMap.get?_eq_some_iff.1 ha)
    have hnone : ∀ m : Layout K, m.constraints.get? id = l.constraints.get? id →
        m.constraint? id = none := fun m hm =>
      (constraint?_congr hm).trans (constraint?_eq_none_iff.2 hforeign)
    rw [← mem_superseded_iff]
    cases hfate with
    | enforced not_mem unlisted constraint mark =>
        exact Or.inl ⟨not_mem, unlisted, constraint, mark.trans or_comm⟩
    | refused not_mem listed same mark => exact Or.inr (Or.inl ⟨not_mem, listed, hnone _ same⟩)
    | discarded mem unlisted same mark => exact Or.inr (Or.inr ⟨mem, unlisted, hnone _ same⟩)
  · rw [← hkeys]
    by_cases hmem : id ∈ other.constraints.entries.map Prod.fst
    · exact Or.inr hmem
    · rw [isActive_congr (hmerged.untouched id hmem).constraints] at hactive
      exact Or.inl hactive
  · rw [entities_join]
    exact kept_joinEntities l other e

end Union

end Layout

namespace Session

variable {K : Type} [Scalar K] {h h' : Handle} {l other : Layout K}

/-- A mark stands for an active constraint unless an edit has put another one in its place. -/
theorem isActive_of_mem_system
    {id : ConstraintId}
    (events : List (Event K))
    (hspares : (empty : Session K).heeds (sparesMark id) events = true)
    (hl : ((empty : Session K).run events).layout? h = some l)
    (hid : id ∈ l.system.toList) :
    l.isActive id = true := by
  obtain ⟨names, hrun⟩ := settled_run (· ≠ id) events fun i hi =>
    of_not_not hi ▸ hspares
  exact ((hrun.layouts h l hl).vouched id hid (not_not_intro rfl)).1

/--
A join loses nothing.  The receiver manages its own entities and then the others; its constraints
and their marks are as before; every constraint of the other layout is in force, is listed as
refused, or is discarded as the size of a shared entity or the pin of a variable in both tables; and
shared entities keep the receiver's intrinsic sizes.  A constraint that comes into force is marked
here as it was there, unless an edit has put another constraint in its place while it was marked.
-/
theorem join_accounts
    (events : List (Event K))
    (hl : ((empty : Session K).run events).layout? h = some l)
    (hother : ((empty : Session K).run events).layout? h' = some other)
    (hapart : apart l other = true) :
    Layout.Union l other (l.join other).1 (l.join other).2 ∧
      ∀ id c, other.constraint? id = some c → (l.join other).2.constraint? id = some c →
        (empty : Session K).heeds (sparesMark id) events = true →
        (id ∈ (l.join other).2.system.toList ↔ id ∈ other.system.toList) := by
  obtain ⟨names, hrun⟩ := registered_run events
  have hregistered : Layout.Registered names other := hrun.layouts h' other hother
  have hunion := hregistered.named.union (l := l) fun id hactive =>
    isActive_eq_false_of_apart hapart hactive
  refine ⟨hunion, fun id c hc hjoined hspares => ?_⟩
  have hfresh : id ∉ l.system.toList := fun hid => by
    have hactive := isActive_of_mem_system events hspares hl hid
    have hforeign := isActive_eq_false_of_apart hapart hactive
    rw [Layout.isActive_of_constraint? hc] at hforeign
    cases hforeign
  rcases hunion.accounted id c hc with ⟨_, _, _, hmark⟩ | ⟨_, _, hnone⟩ | ⟨_, _, hnone⟩
  · exact hmark.trans (or_iff_right hfresh)
  · cases hjoined.symm.trans hnone
  · cases hjoined.symm.trans hnone

/--
Both layouts pin a variable of the shared entity and give it a size.  The other one gives a second
entity a size too, and has two constraints, the first of which contradicts the receiver's pin.
-/
def overlapEvents : List (Event Rat) :=
  [.start {}, .start {}, .ask ⟨0⟩ (.manage ⟨1⟩), .ask ⟨1⟩ (.manage ⟨1⟩), .ask ⟨1⟩ (.manage ⟨2⟩),
    .ask ⟨0⟩ (.pin ⟨⟨1⟩, .left⟩ 5), .ask ⟨0⟩ (.changeIntrinsic ⟨1⟩ .horizontal (.size (some 10))),
    .ask ⟨1⟩ (.pin ⟨⟨1⟩, .left⟩ 7), .ask ⟨1⟩ (.changeIntrinsic ⟨1⟩ .horizontal (.size (some 20))),
    .ask ⟨1⟩ (.changeIntrinsic ⟨2⟩ .horizontal (.size (some 30))),
    .make ⟨1⟩ [⟨⟨⟨1⟩, .left⟩, .atLeast, none⟩] { offset := some 6 },
    .make ⟨2⟩ [⟨⟨⟨2⟩, .left⟩, .equal, some ⟨⟨1⟩, .right⟩⟩] {},
    .add ⟨1⟩ 0 {}, .add ⟨1⟩ 1 {}]

theorem join_accounts_overlap :
    ∃ l other, ((empty : Session Rat).run overlapEvents).layout? ⟨0⟩ = some l ∧
      ((empty : Session Rat).run overlapEvents).layout? ⟨1⟩ = some other ∧
      apart l other = true ∧ l.constraints.keys = [⟨1⟩, ⟨2⟩, ⟨3⟩] ∧
      other.constraints.keys = [⟨4⟩, ⟨5⟩, ⟨6⟩, ⟨7⟩, ⟨8⟩, ⟨9⟩, ⟨10⟩] ∧ (l.join other).1 = [⟨9⟩] ∧
      (l.join other).2.constraints.keys = [⟨1⟩, ⟨2⟩, ⟨3⟩, ⟨7⟩, ⟨8⟩, ⟨10⟩] ∧
      Layout.Union l other (l.join other).1 (l.join other).2 ∧
      (∃ c, other.constraint? ⟨7⟩ = some c ∧ (l.join other).2.constraint? ⟨7⟩ = some c) ∧
      (⟨7⟩ ∈ (l.join other).2.system.toList ↔ ⟨7⟩ ∈ other.system.toList) := by
  have hstate : (((empty : Session Rat).run overlapEvents).layout? ⟨0⟩).bind (fun l =>
      (((empty : Session Rat).run overlapEvents).layout? ⟨1⟩).map fun other =>
        (apart l other, l.constraints.keys, other.constraints.keys, (l.join other).1,
          (l.join other).2.constraints.keys)) =
      some (true, [⟨1⟩, ⟨2⟩, ⟨3⟩], [⟨4⟩, ⟨5⟩, ⟨6⟩, ⟨7⟩, ⟨8⟩, ⟨9⟩, ⟨10⟩], [⟨9⟩],
        [⟨1⟩, ⟨2⟩, ⟨3⟩, ⟨7⟩, ⟨8⟩, ⟨10⟩]) := by
    decide +kernel
  have hspares : (empty : Session Rat).heeds (sparesMark ⟨7⟩) overlapEvents = true := by
    decide +kernel
  obtain ⟨l, hl, hpair⟩ := Option.bind_eq_some_iff.1 hstate
  obtain ⟨other, hother, hparts⟩ := Option.map_eq_some_iff.1 hpair
  simp only [Prod.mk.injEq] at hparts
  obtain ⟨hapart, hkeys, hkeys', hrejected, hjoined⟩ := hparts
  obtain ⟨hunion, hmarks⟩ := join_accounts overlapEvents hl hother hapart
  -- the size of the second entity is neither refused nor discarded, since it is in force
  have hactive : (l.join other).2.isActive ⟨7⟩ = true :=
    OrderedMap.contains_eq_true.2 (by rw [hjoined]; decide)
  obtain ⟨c, hc⟩ : ∃ c, other.constraint? ⟨7⟩ = some c := by
    rw [← Option.isSome_iff_exists, Layout.isSome_constraint?]
    exact OrderedMap.contains_eq_true.2 (by rw [hkeys']; decide)
  have hin : (l.join other).2.constraint? ⟨7⟩ = some c := by
    rw [← Layout.isSome_constraint?, Option.isSome_iff_ne_none] at hactive
    rcases hunion.accounted ⟨7⟩ c hc with ⟨_, _, hin, _⟩ | ⟨_, _, hnone⟩ | ⟨_, _, hnone⟩
    · exact hin
    · exact absurd hnone hactive
    · exact absurd hnone hactive
  exact ⟨l, other, hl, hother, hapart, hkeys, hkeys', hrejected, hjoined, hunion, ⟨c, hc, hin⟩,
    hmarks ⟨7⟩ c hc hin hspares⟩

/--
A pin of the first layout gives way to a bound, and the caller adds a copy of that pin to the second
layout.
-/
def staleMarkEvents : List (Event Rat) :=
  [.start {}, .start {}, .ask ⟨0⟩ (.manage ⟨1⟩), .ask ⟨1⟩ (.manage ⟨1⟩),
    .ask ⟨0⟩ (.pin ⟨⟨1⟩, .left⟩ 5), .copy ⟨0⟩ ⟨1⟩,
    .make ⟨1⟩ [⟨⟨⟨1⟩, .left⟩, .atLeast, none⟩] { offset := some 5 },
    .replace ⟨0⟩ ⟨1⟩ 1 {}, .add ⟨1⟩ 0 {}]

/-- The copy is no system constraint of its layout, but it becomes one in the other. -/
theorem marked_by_join_staleMarkEvents :
    ∃ l other, ((empty : Session Rat).run staleMarkEvents).layout? ⟨0⟩ = some l ∧
      ((empty : Session Rat).run staleMarkEvents).layout? ⟨1⟩ = some other ∧
      apart l other = true ∧ other.isActive ⟨1⟩ = true ∧ ⟨1⟩ ∉ other.system.toList ∧
      (l.join other).1 = [] ∧ (l.join other).2.isActive ⟨1⟩ = true ∧
      ⟨1⟩ ∈ (l.join other).2.system.toList := by
  have hstate : (((empty : Session Rat).run staleMarkEvents).layout? ⟨0⟩).bind (fun l =>
      (((empty : Session Rat).run staleMarkEvents).layout? ⟨1⟩).map fun other =>
        ([apart l other, other.isActive ⟨1⟩, (l.join other).2.isActive ⟨1⟩],
          other.system.toList, (l.join other).1, (l.join other).2.system.toList)) =
      some ([true, true, true], [], [], [⟨1⟩]) := by
    decide +kernel
  obtain ⟨l, hl, hpair⟩ := Option.bind_eq_some_iff.1 hstate
  obtain ⟨other, hother, hparts⟩ := Option.map_eq_some_iff.1 hpair
  simp only [Prod.mk.injEq, List.cons.injEq, and_true] at hparts
  obtain ⟨⟨hapart, hactive, hjoined⟩, hunmarked, hrejected, hmarked⟩ := hparts
  exact ⟨l, other, hl, hother, hapart, hactive, hunmarked ▸ List.not_mem_nil, hrejected, hjoined,
    hmarked ▸ List.mem_cons_self⟩

end Session
end LinearLayout
