import LinearLayout.Proofs.Layout.Joins

/-!
# The registry throughout a session

Whatever happens in a session, the tables of every layout agree: active constraints speak of
managed entities, the lists of the owners follow the table of constraints, and pins belong to
managed entities.  System constraints are active and on record as long as no edit puts another
constraint in their place.
-/

namespace LinearLayout
namespace Session

variable {K : Type} [Scalar K] {s : Session K} {h : Handle} {l : Layout K} {names : Names}
  {stale : ConstraintId → Prop}

section Layouts

/-- A property of all layouts of a session. -/
def All (P : Layout K → Prop) (s : Session K) : Prop :=
  ∀ h l, s.layout? h = some l → P l

variable {P : Layout K → Prop}

theorem All.imp
    {Q : Layout K → Prop}
    (hs : s.All P)
    (hPQ : ∀ l, P l → Q l) :
    s.All Q :=
  fun h l hl => hPQ l (hs h l hl)

theorem layout?_setLayout
    (s : Session K) (h : Handle) (l : Layout K) (other : Handle) :
    (s.setLayout h l).layout? other = if other = h then some l else s.layout? other :=
  OrderedMap.get?_insert _ _ _ _

theorem All.setLayout
    (hs : s.All P)
    (hl : P l) :
    (s.setLayout h l).All P := by
  intro other m hm
  rw [layout?_setLayout] at hm
  split at hm
  · cases hm
    exact hl
  · exact hs other m hm

theorem All.share
    (hs : s.All P)
    (hl : P l) :
    All P { s with pool := (s.pool.share l).2 } := by
  intro other m hm
  rw [layout?, Pool.get?, Pool.share, OrderedMap.get?_insert] at hm
  split at hm
  · cases hm
    exact hl
  · exact hs other m hm

theorem All.ask
    {request : Request K}
    (hs : s.All P)
    (hserve : ∀ l, s.layout? h = some l → P (l.serve s.ids request).1) :
    (s.ask h request).All P := by
  unfold Session.ask
  cases hl : s.layout? h with
  | none => exact hs
  | some l => exact hs.setLayout (hserve l hl)

theorem All.add
    {index : Nat} {edit : Edit K}
    (hs : s.All P)
    (hadd : ∀ l, s.layout? h = some l → ∀ c ∈ s.held, P (l.add (c.edit edit)).2) :
    (s.add h index edit).All P := by
  unfold Session.add
  cases hl : s.layout? h with
  | none => exact hs
  | some l =>
      cases hc : s.held[index]? with
      | none => exact hs
      | some c => exact hs.setLayout (hadd l hl c (List.mem_of_getElem? hc))

theorem All.replace
    {id : ConstraintId} {index : Nat} {edit : Edit K}
    (hs : s.All P)
    (hupdate : ∀ l c, s.layout? h = some l → s.held[index]? = some c →
      P (l.update id fun _ => c.edit edit).2) :
    (s.replace h id index edit).All P := by
  unfold Session.replace
  cases hl : s.layout? h with
  | none => exact hs
  | some l =>
      cases hc : s.held[index]? with
      | none => exact hs
      | some c => exact hs.setLayout (hupdate l c hl hc)

theorem All.split
    {root : Entity} {tree : ChildRelation}
    (hs : s.All P)
    (hsplit : ∀ l, s.layout? h = some l → P (l.split root tree).1 ∧ P (l.split root tree).2) :
    (s.split h root tree).All P := by
  unfold Session.split Pool.split
  cases hl : s.pool.get? h with
  | none => exact hs
  | some l =>
      have hrest : (s.setLayout h (l.split root tree).1).All P := hs.setLayout (hsplit l hl).1
      exact hrest.share (hsplit l hl).2

theorem All.join
    {target source : Handle}
    (hs : s.All P)
    (hnew : ∀ settings, P (.new settings))
    (hjoin : ∀ l other, target ≠ source → s.layout? target = some l →
      s.layout? source = some other → P (l.join other).2) :
    (s.join target source).All P := by
  unfold Session.join Pool.join
  by_cases hsame : target = source
  · rw [if_pos hsame]
    exact hs
  · rw [if_neg hsame]
    cases hl : s.pool.get? target with
    | none => exact hs
    | some l =>
        cases hother : s.pool.get? source with
        | none => exact hs
        | some other =>
            have hemptied : (s.setLayout source (.new other.settings)).All P :=
              hs.setLayout (hnew _)
            exact hemptied.setLayout (hjoin l other hsame hl hother)

end Layouts

section Marks

/-- An event does not put another constraint in the place of a certain system constraint. -/
def sparesMark (id : ConstraintId) (s : Session K) : Event K → Bool
  | .replace h i index _ =>
    match s.layout? h, s.held[index]? with
    | some l, some c => i ≠ id || c.id = id || !l.system.contains id
    | _, _ => true
  | _ => true

theorem id_eq_of_sparesMark
    {id : ConstraintId} {index : Nat} {edit : Edit K} {c : Constraint K}
    (hspares : s.sparesMark id (.replace h id index edit) = true)
    (hl : s.layout? h = some l)
    (hc : s.held[index]? = some c)
    (hmark : id ∈ l.system.toList) :
    (c.edit edit).id = id := by
  simpa [sparesMark, hl, hc, OrderedSet.contains_eq_true.2 hmark] using hspares

end Marks

section Apart

/-- What an event that keeps apart puts in place has the old name or one that is not active. -/
theorem eq_or_not_active_of_keepsApart
    {id : ConstraintId} {index : Nat} {edit : Edit K} {c : Constraint K}
    (hkeeps : s.keepsApart (.replace h id index edit) = true)
    (hl : s.layout? h = some l)
    (hc : s.held[index]? = some c) :
    (c.edit edit).id = id ∨ l.isActive (c.edit edit).id = false := by
  simpa [keepsApart, hl, hc] using hkeeps

end Apart

section Registered

/-- The tables of all layouts agree, and held constraints are what their names stand for. -/
structure Settled (names : Names) (stale : ConstraintId → Prop) (s : Session K) : Prop where
  below : names.Below s.ids.next
  held : ∀ c ∈ s.held, names c.id = some c.blueprint
  layouts : s.All (Layout.Settled names stale)

/-- The same without a word on the constraints behind the marks. -/
abbrev Registered (names : Names) (s : Session K) : Prop :=
  Settled names (fun _ => True) s

theorem settled_empty
    (stale : ConstraintId → Prop) :
    Settled (fun _ => none) stale (empty : Session K) where
  below := nofun
  held := nofun
  layouts := nofun

theorem Settled.make
    (hs : Settled names stale s)
    (owner : Entity) (items : List Item) (edit : Edit K) :
    ∃ later, names.Extends later ∧ Settled later stale (s.make owner items edit) := by
  have hfree : names ⟨s.ids.next⟩ = none := hs.below.eq_none (Nat.le_refl _)
  have hgrows := Names.extends_give (b := ⟨owner, items⟩) hfree
  refine ⟨_, hgrows, hs.below.give _, fun c hc => ?_, hs.layouts.imp fun _ hl => hl.mono hgrows⟩
  rcases List.mem_append.1 hc with hc | hc
  · exact hgrows _ _ (hs.held c hc)
  · rw [List.mem_singleton.1 hc]
    exact Names.give_self _ _ _

theorem Settled.copy
    (hs : Settled names stale s)
    (h : Handle) (id : ConstraintId) :
    Settled names stale (s.copy h id) where
  below := hs.below
  held := by
    intro c hc
    rcases List.mem_append.1 hc with hc | hc
    · exact hs.held c hc
    · obtain ⟨l, hl, hid⟩ := Option.bind_eq_some_iff.1 (Option.mem_toList.1 hc)
      obtain ⟨hname, hblueprint⟩ := (hs.layouts h l hl).named.of_constraint? hid
      exact hname ▸ hblueprint
  layouts := hs.layouts

/--
One event keeps the tables in agreement, for the names in use after it, if it spares the marks that
have not gone stale.
-/
theorem Settled.step
    (hs : Settled names stale s)
    (event : Event K)
    (hspares : ∀ id, ¬ stale id → s.sparesMark id event = true) :
    ∃ later, names.Extends later ∧ Settled later stale (s.step event) := by
  cases event with
  | make owner items edit => exact hs.make owner items edit
  | copy h id => exact ⟨names, .refl names, hs.copy h id⟩
  | start settings =>
      exact ⟨names, .refl names, hs.below, hs.held,
        hs.layouts.share (Layout.settled_new names stale settings)⟩
  | ask h request =>
      cases hl : s.layout? h with
      | none =>
          have hsame : s.ask h request = s := by rw [Session.ask, hl]
          exact ⟨names, .refl names, (hsame.symm ▸ hs : Settled names stale (s.ask h request))⟩
      | some l =>
          obtain ⟨later, hgrows, hbelow, hserved⟩ := (hs.layouts h l hl).serve hs.below request
          have hasked : s.ask h request =
              { s.setLayout h (l.serve s.ids request).1 with
                ids := (l.serve s.ids request).2 } := by
            rw [Session.ask, hl]
          refine ⟨later, hgrows, ?_⟩
          show Settled later stale (s.ask h request)
          rw [hasked]
          exact ⟨hbelow, fun c hc => hgrows _ _ (hs.held c hc),
            All.setLayout (hs.layouts.imp fun _ hm => hm.mono hgrows) hserved⟩
  | add h index edit =>
      have hheld : (s.add h index edit).held = s.held ∧ (s.add h index edit).ids = s.ids := by
        unfold Session.add
        split <;> exact ⟨rfl, rfl⟩
      refine ⟨names, .refl names, ?_, ?_, hs.layouts.add fun l hl c hc => ?_⟩
      · exact hheld.2 ▸ hs.below
      · exact hheld.1 ▸ hs.held
      · exact Layout.Settled.add (hs.layouts h l hl) (hs.held c hc)
  | replace h id index edit =>
      have hheld : (s.replace h id index edit).held = s.held ∧
          (s.replace h id index edit).ids = s.ids := by
        unfold Session.replace
        split <;> exact ⟨rfl, rfl⟩
      refine ⟨names, .refl names, ?_, ?_, hs.layouts.replace fun l c hl hc => ?_⟩
      · exact hheld.2 ▸ hs.below
      · exact hheld.1 ▸ hs.held
      · exact Layout.Settled.update (hs.layouts h l hl)
          (fun _ _ => hs.held c (List.mem_of_getElem? hc))
          fun hmark hfresh _ _ => id_eq_of_sparesMark (hspares id hfresh) hl hc hmark
  | split h root tree =>
      have hheld : (s.split h root tree).held = s.held ∧ (s.split h root tree).ids = s.ids := by
        unfold Session.split
        split <;> exact ⟨rfl, rfl⟩
      refine ⟨names, .refl names, ?_, ?_, hs.layouts.split fun l hl => ?_⟩
      · exact hheld.2 ▸ hs.below
      · exact hheld.1 ▸ hs.held
      · exact Layout.Settled.split (hs.layouts h l hl) root tree
  | join target source =>
      have hheld : (s.join target source).held = s.held ∧ (s.join target source).ids = s.ids := by
        unfold Session.join
        split <;> exact ⟨rfl, rfl⟩
      refine ⟨names, .refl names, ?_, ?_,
        hs.layouts.join (Layout.settled_new names stale) fun l other _ hl hother => ?_⟩
      · exact hheld.2 ▸ hs.below
      · exact hheld.1 ▸ hs.held
      · exact Layout.Settled.join (hs.layouts target l hl) (hs.layouts source other hother)

/-- Where every mark may go stale there is nothing to spare. -/
theorem Registered.step
    (hs : Registered names s)
    (event : Event K) :
    ∃ later, names.Extends later ∧ Registered later (s.step event) :=
  Settled.step hs event fun _ hfresh => absurd trivial hfresh

theorem settled_run
    (stale : ConstraintId → Prop) (events : List (Event K))
    (hspares : ∀ id, ¬ stale id → (empty : Session K).heeds (sparesMark id) events = true) :
    ∃ names, Settled names stale ((empty : Session K).run events) := by
  have hrun : ∀ (events : List (Event K)) (s : Session K) (names : Names), Settled names stale s →
      (∀ id, ¬ stale id → s.heeds (sparesMark id) events = true) →
      ∃ later, Settled later stale (s.run events) := by
    intro events
    induction events with
    | nil =>
        exact fun s names hs _ => ⟨names, hs⟩
    | cons event events ih =>
        intro s names hs hspares
        obtain ⟨later, _, hstep⟩ := hs.step event fun id hfresh =>
          (Bool.and_eq_true_iff.1 (hspares id hfresh)).1
        exact ih (s.step event) later hstep fun id hfresh =>
          (Bool.and_eq_true_iff.1 (hspares id hfresh)).2
  exact hrun events empty _ (settled_empty stale) hspares

theorem registered_run
    (events : List (Event K)) :
    ∃ names, Registered names ((empty : Session K).run events) :=
  settled_run _ events fun _ hfresh => absurd trivial hfresh

end Registered

section Results

/-- A system constraint whose mark has not gone stale is active and on record. -/
theorem Settled.recorded
    {id : ConstraintId}
    (hs : Settled names stale s)
    (hl : s.layout? h = some l)
    (hid : id ∈ l.system.toList)
    (hfresh : ¬ stale id) :
    ∃ c, l.constraint? id = some c ∧
      ((∃ v, c.items = [⟨v, .equal, none⟩] ∧ l.pins.get? v = some id) ∨
        ∃ r axis, l.entities.get? c.owner = some r ∧ id ∈ r.sizeConstraints.get axis) := by
  have hfiled := hs.layouts h l hl
  obtain ⟨hactive, hrecord⟩ := hfiled.vouched id hid hfresh
  obtain ⟨a, ha⟩ := Layout.isActive_iff.1 hactive
  obtain ⟨b, hb, hrecord⟩ := hrecord.resolve_right not_false
  have hblueprint : a.constraint.blueprint = b := hfiled.named.eq_of_get? ha hb
  refine ⟨a.constraint, congrArg (Option.map _) ha, ?_⟩
  rcases hrecord with ⟨v, rfl, hv⟩ | hsize
  · exact Or.inl ⟨v, congrArg Blueprint.items hblueprint, hv⟩
  · obtain ⟨r, hr, hmem⟩ := Layout.exists_of_mem_sizeConstraintsOf hsize
    obtain ⟨axis, hmem⟩ := PerAxis.mem_flatten_toList.1 hmem
    refine Or.inr ⟨r, axis, ?_, hmem⟩
    rw [← hr, ← hblueprint]
    rfl

/--
The registry of every layout of a session: active constraints speak of managed entities; every
entity lists its constraints once and in the order of the table, and an entity that is not managed
lists none; a system constraint is active and on record, as the pin of its variable or for the
intrinsic size of its owner, unless an edit has put another constraint in its place; and pinned
variables belong to managed entities.
-/
theorem registry_agrees
    (events : List (Event K))
    (hl : ((empty : Session K).run events).layout? h = some l) :
    (∀ c ∈ l.active, ∀ e ∈ c.entities, l.isManaged e = true) ∧
      (∀ e, l.constraintsOf e = (l.active.filter fun c => c.owner = e) ∧
        ((l.constraintsOf e).map Constraint.id).Nodup ∧
        (l.isManaged e = false → l.constraintsOf e = [])) ∧
      (∀ id ∈ l.system.toList, (empty : Session K).heeds (sparesMark id) events = true →
        ∃ c, l.constraint? id = some c ∧
          ((∃ v, c.items = [⟨v, .equal, none⟩] ∧ l.pins.get? v = some id) ∨
            ∃ r axis, l.entities.get? c.owner = some r ∧ id ∈ r.sizeConstraints.get axis)) ∧
      ∀ v ∈ l.pins.keys, l.isManaged v.entity = true := by
  obtain ⟨names, hrun⟩ := registered_run events
  have hfiled : Layout.Registered names l := hrun.layouts h l hl
  refine ⟨fun c hc e he => ?_, fun e => ⟨(hfiled.lists e).constraintsOf_eq, ?_, ?_⟩,
    fun id hid hspares => ?_, fun v hv => ?_⟩
  · obtain ⟨id, a, ha, rfl⟩ := Layout.mem_active_iff.1 hc
    exact hfiled.closed id a ha e he
  · rw [(hfiled.lists e).constraintsOf_eq]
    have hids : (l.active.map Constraint.id).Nodup := by
      rw [hfiled.named.map_id_active]
      exact l.constraints.nodup_keys
    exact hids.sublist (List.filter_sublist.map Constraint.id)
  · exact hfiled.constraintsOf_eq_nil
  · -- all marks but this one may go stale
    obtain ⟨later, hlater⟩ := settled_run (· ≠ id) events fun i hi =>
      of_not_not hi ▸ hspares
    exact hlater.recorded hl hid (not_not_intro rfl)
  · obtain ⟨id, hid⟩ := OrderedMap.mem_keys_iff.1 hv
    exact (hfiled.pinned v id hid).1

/--
Two layouts share an entity.  One pins a variable of it; the other pins a variable of a second
entity, gives that entity a size and relates the two, and the relation gives way to another one;
then they are joined.
-/
def joinedEvents : List (Event Rat) :=
  [.start {}, .start {}, .ask ⟨0⟩ (.manage ⟨1⟩), .ask ⟨1⟩ (.manage ⟨1⟩), .ask ⟨1⟩ (.manage ⟨2⟩),
    .ask ⟨0⟩ (.pin ⟨⟨1⟩, .left⟩ 5), .ask ⟨1⟩ (.pin ⟨⟨2⟩, .left⟩ 3),
    .ask ⟨1⟩ (.changeIntrinsic ⟨2⟩ .horizontal (.size (some 10))),
    .make ⟨2⟩ [⟨⟨⟨2⟩, .right⟩, .equal, some ⟨⟨1⟩, .right⟩⟩] {},
    .make ⟨2⟩ [⟨⟨⟨2⟩, .right⟩, .atLeast, some ⟨⟨1⟩, .right⟩⟩] {},
    .add ⟨1⟩ 0 {}, .replace ⟨1⟩ ⟨5⟩ 1 {}, .join ⟨0⟩ ⟨1⟩]

theorem registry_agrees_joined :
    ∃ l, ((empty : Session Rat).run joinedEvents).layout? ⟨0⟩ = some l ∧
      l.constraints.keys = [⟨1⟩, ⟨2⟩, ⟨3⟩, ⟨4⟩, ⟨6⟩] ∧
      l.system.toList = [⟨1⟩, ⟨2⟩, ⟨3⟩, ⟨4⟩] ∧
      (∀ c ∈ l.active, ∀ e ∈ c.entities, l.isManaged e = true) ∧
      (∀ e, l.constraintsOf e = (l.active.filter fun c => c.owner = e) ∧
        ((l.constraintsOf e).map Constraint.id).Nodup ∧
        (l.isManaged e = false → l.constraintsOf e = [])) ∧
      (∀ id ∈ l.system.toList, ∃ c, l.constraint? id = some c ∧
        ((∃ v, c.items = [⟨v, .equal, none⟩] ∧ l.pins.get? v = some id) ∨
          ∃ r axis, l.entities.get? c.owner = some r ∧ id ∈ r.sizeConstraints.get axis)) ∧
      ∀ v ∈ l.pins.keys, l.isManaged v.entity = true := by
  have hstate : (((empty : Session Rat).run joinedEvents).layout? ⟨0⟩).map
      (fun l => (l.constraints.keys, l.system.toList)) =
      some ([⟨1⟩, ⟨2⟩, ⟨3⟩, ⟨4⟩, ⟨6⟩], [⟨1⟩, ⟨2⟩, ⟨3⟩, ⟨4⟩]) := by
    decide +kernel
  have hspares : ∀ id ∈ [⟨1⟩, ⟨2⟩, ⟨3⟩, ⟨4⟩],
      (empty : Session Rat).heeds (sparesMark id) joinedEvents = true := by
    decide +kernel
  obtain ⟨l, hl, htables⟩ := Option.map_eq_some_iff.1 hstate
  simp only [Prod.mk.injEq] at htables
  obtain ⟨hkeys, hids⟩ := htables
  obtain ⟨hclosed, hlists, hmarks, hpins⟩ := registry_agrees joinedEvents hl
  exact ⟨l, hl, hkeys, hids, hclosed, hlists,
    fun id hid => hmarks id hid (hspares id (hids ▸ hid)), hpins⟩

/-- A pin gives way to a bound on the same variable. -/
def replacedPinEvents : List (Event Rat) :=
  [.start {}, .ask ⟨0⟩ (.manage ⟨1⟩), .ask ⟨0⟩ (.pin ⟨⟨1⟩, .left⟩ 5),
    .make ⟨1⟩ [⟨⟨⟨1⟩, .left⟩, .atLeast, none⟩] { offset := some 5 }, .replace ⟨0⟩ ⟨1⟩ 0 {}]

/-- The mark of the pin stays behind, although no constraint of its name is active any more. -/
theorem stale_mark_replacedPinEvents :
    ∃ l, ((empty : Session Rat).run replacedPinEvents).layout? ⟨0⟩ = some l ∧
      l.constraints.keys = [⟨2⟩] ∧ ⟨1⟩ ∈ l.system.toList ∧ l.isActive ⟨1⟩ = false := by
  have hstate : (((empty : Session Rat).run replacedPinEvents).layout? ⟨0⟩).map
      (fun l => (l.constraints.keys, l.system.toList, l.isActive ⟨1⟩)) =
      some ([⟨2⟩], [⟨1⟩], false) := by
    decide +kernel
  obtain ⟨l, hl, htables⟩ := Option.map_eq_some_iff.1 hstate
  simp only [Prod.mk.injEq] at htables
  obtain ⟨hkeys, hsystem, hactive⟩ := htables
  exact ⟨l, hl, hkeys, hsystem ▸ List.mem_cons_self, hactive⟩

end Results

end Session
end LinearLayout
