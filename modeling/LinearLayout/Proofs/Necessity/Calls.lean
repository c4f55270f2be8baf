import Mathlib.Data.List.Induction
import LinearLayout.Proofs.Necessity.Closure

/-!
# Runs of the analysis

Constraints are added and removed in any order and questions are asked in between.  Changes wait
until the next question, and a constraint that is added again while its removal waits is simply
kept.  Read together, the waiting changes and the constraints of the last analysis say what is
tracked; that is what a bookkeeping without any waiting has on record, so an answer depends on
nothing else.
-/

namespace LinearLayout

/-- The items of a constraint, if it is tracked. -/
abbrev Tracking :=
  ConstraintId → Option (List Item)

/-- An item of a constraint that is tracked. -/
def Tracking.Tracks (t : Tracking) (item : Item) : Prop :=
  ∃ id items, t id = some items ∧ item ∈ items

namespace Necessity

variable {K : Type} [Scalar K] {n : Necessity} {id i : ConstraintId} {c : Constraint K}
  {items : List Item} {v : Variable} {e : Entity} {axis : Axis}

section Overlay

/-- What is tracked: the last analysis with the waiting changes laid over it. -/
def overlay (n : Necessity) : Tracking :=
  fun id => if id ∈ n.removals.toList then none else (n.additions.get? id).or (n.active.get? id)

/-- The items of a constraint are stored, be it that its removal waits. -/
def Stores (n : Necessity) (id : ConstraintId) (items : List Item) : Prop :=
  n.active.get? id = some items ∨ n.additions.get? id = some items

/--
Waiting changes cancel each other: only new constraints wait to be added, and only those of the
last analysis to be removed.  What is fixed is the result of that analysis.
-/
structure Kept (n : Necessity) : Prop where
  additions : ∀ id items, n.additions.get? id = some items → n.active.get? id = none
  removals : ∀ id ∈ n.removals.toList, ∃ items, n.active.get? id = some items
  fixed : n.fixed = Fixed.settle ∅ n.active.values.flatten

theorem kept_empty :
    Kept ∅ :=
  ⟨nofun, nofun, by rw [Fixed.settle]; rfl⟩

theorem stores_of_overlay
    (h : n.overlay id = some items) :
    n.Stores id items := by
  rw [overlay, Option.ite_none_left_eq_some, Option.or_eq_some_iff] at h
  exact h.2.elim Or.inr fun hactive => Or.inl hactive.2

end Overlay

section Add

theorem Kept.add
    (h : n.Kept)
    (c : Constraint K) :
    (n.add c).Kept := by
  unfold Necessity.add
  split
  · refine ⟨fun id items hid => ?_, fun id hid => ?_, h.fixed⟩
    · dsimp only at hid ⊢
      split at hid
      · exact h.additions id items hid
      · next hnew =>
        rw [OrderedMap.get?_insert] at hid
        split at hid
        · next hsame =>
          rw [hsame]
          exact OrderedMap.get?_eq_none_iff.2 (mt OrderedMap.contains_eq_true.2 hnew)
        · exact h.additions id items hid
    · exact h.removals id (OrderedSet.mem_toList_erase.1 hid).2
  · exact h

/-- Adding a fixing constraint tracks it, whether or not a removal of it waits. -/
theorem Kept.overlay_add
    (h : n.Kept)
    (hsame : ∀ items, n.Stores c.id items → items = c.items)
    (id : ConstraintId) :
    (n.add c).overlay id =
      if id = c.id ∧ c.isFixing = true then some c.items else n.overlay id := by
  unfold Necessity.add
  by_cases hfixing : c.isFixing = true
  · rw [if_pos hfixing]
    simp only [overlay, OrderedSet.mem_toList_erase, hfixing, and_true]
    by_cases hid : id = c.id
    · subst hid
      simp only [ne_eq, not_true_eq_false, false_and, if_false, if_true]
      by_cases hactive : c.id ∈ n.active.keys
      · obtain ⟨items, hitems⟩ := OrderedMap.mem_keys_iff.1 hactive
        have hadditions : n.additions.get? c.id = none := by
          cases hadded : n.additions.get? c.id with
          | none => rfl
          | some items' => exact nomatch hitems.symm.trans (h.additions _ _ hadded)
        rw [if_pos (OrderedMap.contains_eq_true.2 hactive), hadditions, hitems,
          hsame items (Or.inl hitems)]
        rfl
      · rw [if_neg (mt OrderedMap.contains_eq_true.1 hactive), OrderedMap.get?_insert, if_pos rfl]
        rfl
    · rw [if_neg hid]
      have hadditions : OrderedMap.get? (if n.active.contains c.id = true then n.additions
          else n.additions.insert c.id c.items) id = n.additions.get? id := by
        split
        · rfl
        · rw [OrderedMap.get?_insert, if_neg hid]
      simp only [hadditions, hid, ne_eq, not_false_eq_true, true_and]
  · simp [hfixing]

@[simp] theorem forced_add :
    (n.add c).forced = n.forced := by
  unfold Necessity.add
  split <;> rfl

theorem stores_add
    (h : (n.add c).Stores id items) :
    n.Stores id items ∨ id = c.id ∧ items = c.items := by
  unfold Necessity.add at h
  split at h
  · rcases h with hactive | hadded
    · exact Or.inl (Or.inl hactive)
    · dsimp only at hadded
      split at hadded
      · exact Or.inl (Or.inr hadded)
      · rw [OrderedMap.get?_insert] at hadded
        split at hadded
        · next hid => exact Or.inr ⟨hid, (Option.some.inj hadded).symm⟩
        · exact Or.inl (Or.inr hadded)
  · exact Or.inl h

end Add

section Remove

theorem Kept.remove
    (h : n.Kept)
    (id : ConstraintId) :
    (n.remove id).Kept := by
  unfold Necessity.remove
  split
  · refine ⟨fun i items hi => ?_, h.removals, h.fixed⟩
    rw [OrderedMap.get?_erase] at hi
    split at hi
    · cases hi
    · exact h.additions i items hi
  · split
    · next hactive =>
      refine ⟨h.additions, fun i hi => ?_, h.fixed⟩
      rcases OrderedSet.mem_toList_insert.1 hi with hi | rfl
      · exact h.removals i hi
      · exact OrderedMap.mem_keys_iff.1 (OrderedMap.contains_eq_true.1 hactive)
    · exact h

/-- Removing a constraint ends its tracking, whether it was analysed or waits to be. -/
theorem Kept.overlay_remove
    (h : n.Kept)
    (id i : ConstraintId) :
    (n.remove id).overlay i = if i = id then none else n.overlay i := by
  unfold Necessity.remove
  by_cases hadded : n.additions.contains id = true
  · rw [if_pos hadded]
    obtain ⟨items, hitems⟩ := OrderedMap.mem_keys_iff.1 (OrderedMap.contains_eq_true.1 hadded)
    simp only [overlay, OrderedMap.get?_erase]
    by_cases hi : i = id
    · subst hi
      simp [h.additions i items hitems]
    · simp [hi]
  · rw [if_neg hadded]
    have hnone := OrderedMap.get?_eq_none_iff.2 (mt OrderedMap.contains_eq_true.2 hadded)
    by_cases hactive : n.active.contains id = true
    · rw [if_pos hactive]
      simp only [overlay, OrderedSet.mem_toList_insert]
      by_cases hi : i = id <;> simp [hi]
    · rw [if_neg hactive]
      split
      · next hi =>
        have hinactive := OrderedMap.get?_eq_none_iff.2 (mt OrderedMap.contains_eq_true.2 hactive)
        rw [overlay, hi, hnone, hinactive]
        simp
      · rfl

@[simp] theorem forced_remove :
    (n.remove i).forced = n.forced := by
  unfold Necessity.remove
  split
  · rfl
  · split <;> rfl

theorem stores_remove
    (h : (n.remove i).Stores id items) :
    n.Stores id items := by
  unfold Necessity.remove at h
  split at h
  · refine h.imp_right fun hadded => ?_
    rw [OrderedMap.get?_erase] at hadded
    split at hadded
    · cases hadded
    · exact hadded
  · split at h <;> exact h

end Remove

section Marks

/-- Setting or clearing a mark touches this mark only. -/
theorem mem_forced_force
    (n : Necessity) (e f : Entity) (axis other : Axis) (on : Bool) :
    (f, other) ∈ (n.force e axis on).forced.toList ↔
      if f = e ∧ other = axis then on = true else (f, other) ∈ n.forced.toList := by
  have hpair : (f, other) = (e, axis) ↔ f = e ∧ other = axis := Prod.mk.injEq .. ▸ Iff.rfl
  cases on with
  | true => by_cases h : f = e ∧ other = axis <;> simp [force, h, hpair]
  | false => by_cases h : f = e ∧ other = axis <;> simp [force, h, hpair]

theorem mem_forced_forget
    (n : Necessity) (e f : Entity) (axis : Axis) :
    (f, axis) ∈ (n.forget e).forced.toList ↔ f ≠ e ∧ (f, axis) ∈ n.forced.toList := by
  rw [forget, mem_forced_force, mem_forced_force]
  by_cases hf : f = e <;> cases axis <;> simp [hf]

end Marks

section Refresh

theorem Kept.get?_tracked
    (h : n.Kept)
    (id : ConstraintId) :
    n.tracked.get? id = n.overlay id := by
  rw [tracked, OrderedMap.get?_foldl_insert, OrderedMap.get?_foldl_erase, overlay]
  by_cases hid : id ∈ n.removals.toList
  · obtain ⟨items, hitems⟩ := h.removals id hid
    have hadditions : n.additions.get? id = none := by
      cases hadded : n.additions.get? id with
      | none => rfl
      | some items' => exact nomatch hitems.symm.trans (h.additions _ _ hadded)
    rw [if_pos hid, if_pos hid, hadditions]
    rfl
  · rw [if_neg hid, if_neg hid]

theorem eq_empty_of_not_isStale
    (h : ¬n.isStale = true) :
    n.additions = ∅ ∧ n.removals = ∅ := by
  rw [isStale, Bool.not_eq_true', Bool.not_eq_false, Bool.and_eq_true] at h
  exact ⟨OrderedMap.ext (List.isEmpty_iff.1 h.1), OrderedSet.ext (List.isEmpty_iff.1 h.2)⟩

/-- A refreshed analysis is one of all that is tracked. -/
theorem Kept.refresh
    (h : n.Kept) :
    n.refresh.Kept ∧ n.refresh.overlay = n.overlay ∧
      ∀ id, n.refresh.active.get? id = n.overlay id := by
  unfold Necessity.refresh
  split
  · refine ⟨⟨fun id items hadded => ?_, fun id hremoved => ?_, rfl⟩, funext h.get?_tracked,
      h.get?_tracked⟩
    · cases hadded
    · cases hremoved
  · next hfresh =>
    obtain ⟨hadditions, hremovals⟩ := eq_empty_of_not_isStale hfresh
    refine ⟨h, rfl, fun id => ?_⟩
    rw [overlay, hadditions, hremovals]
    rfl

theorem Kept.stores_refresh
    (h : n.Kept)
    (hid : n.refresh.Stores id items) :
    n.Stores id items := by
  refine hid.elim (fun hactive => ?_) fun hadded => ?_
  · exact stores_of_overlay ((h.refresh.2.2 id).symm.trans hactive)
  · unfold Necessity.refresh at hadded
    split at hadded
    · cases hadded
    · exact Or.inr hadded

@[simp] theorem forced_refresh :
    n.refresh.forced = n.forced := by
  unfold Necessity.refresh
  split <;> rfl

theorem mem_flatten_values_iff
    {m : OrderedMap ConstraintId (List Item)} {item : Item} :
    item ∈ m.values.flatten ↔ ∃ id items, m.get? id = some items ∧ item ∈ items := by
  rw [List.mem_flatten]
  constructor
  · rintro ⟨items, hitems, hitem⟩
    obtain ⟨entry, hentry, rfl⟩ := List.mem_map.1 hitems
    exact ⟨entry.1, entry.2, OrderedMap.get?_eq_some_iff.2 hentry, hitem⟩
  · rintro ⟨id, items, hid, hitem⟩
    exact ⟨items, List.mem_map.2 ⟨(id, items), OrderedMap.get?_eq_some_iff.1 hid, rfl⟩, hitem⟩

/-- What is fixed is what the tracked items and the boxes determine. -/
theorem Kept.isFixed_iff
    (h : n.Kept)
    (v : Variable) :
    (n.isFixed v).1 = true ↔ Determined n.overlay.Tracks v := by
  obtain ⟨hkept, _, hactive⟩ := h.refresh
  rw [isFixed, OrderedSet.contains_eq_true, hkept.fixed, Fixed.mem_settle_iff]
  refine Determined.congr fun item => mem_flatten_values_iff.trans ?_
  simp only [hactive, Tracking.Tracks]

/-- A size has to be measured if a mark says so or if it is not determined. -/
theorem Kept.needsSize_iff
    (h : n.Kept)
    (e : Entity) (axis : Axis) :
    (n.needsSize e axis).1 = true ↔
      (e, axis) ∈ n.forced.toList ∨ ¬Determined n.overlay.Tracks ⟨e, axis.extent⟩ := by
  rw [← h.isFixed_iff, needsSize, isFixed, forced_refresh, Bool.or_eq_true,
    OrderedSet.contains_eq_true, Bool.not_eq_true', Bool.not_eq_true]

end Refresh

section Calls

/-- What an analysis can be told or asked. -/
inductive Call (K : Type) [Scalar K] where
  | add (c : Constraint K)
  | remove (id : ConstraintId)
  | isFixed (v : Variable)
  | needsSize (e : Entity) (axis : Axis)
  | force (e : Entity) (axis : Axis) (on : Bool)
  | forget (e : Entity)

/-- The analysis after a call. -/
def call (n : Necessity) : Call K → Necessity
  | .add c => n.add c
  | .remove id => n.remove id
  | .isFixed v => (n.isFixed v).2
  | .needsSize e axis => (n.needsSize e axis).2
  | .force e axis on => n.force e axis on
  | .forget e => n.forget e

/-- The analysis after a list of calls. -/
def run (n : Necessity) (calls : List (Call K)) : Necessity :=
  calls.foldl call n

/--
What is on record after a call, of constraints that are written down at once: the first fixing
constraint that is added under a name stays on record until the name is removed.
-/
def enter (r : ConstraintId → Option (Constraint K)) (x : Call K) (id : ConstraintId) :
    Option (Constraint K) :=
  match x with
  | .add c => if id = c.id ∧ c.isFixing = true then some ((r id).getD c) else r id
  | .remove i => if id = i then none else r id
  | _ => r id

/-- What is on record after a list of calls. -/
def onRecord (calls : List (Call K)) : ConstraintId → Option (Constraint K) :=
  calls.foldl enter fun _ => none

/-- An item of a constraint that is on record. -/
def ItemOnRecord (calls : List (Call K)) (item : Item) : Prop :=
  ∃ id c, onRecord calls id = some c ∧ item ∈ c.items

/-- Constraints that are added under one name have the same items. -/
def SameItems (calls : List (Call K)) : Prop :=
  ∀ c d, .add c ∈ calls → .add d ∈ calls → c.id = d.id → c.items = d.items

variable {calls more : List (Call K)}

theorem run_concat
    (calls : List (Call K)) (x : Call K) :
    run n (calls ++ [x]) = (run n calls).call x :=
  List.foldl_append

theorem onRecord_concat
    (calls : List (Call K)) (x : Call K) (id : ConstraintId) :
    onRecord (calls ++ [x]) id = enter (onRecord calls) x id :=
  congrFun List.foldl_append id

theorem SameItems.of_concat
    {x : Call K}
    (h : SameItems (calls ++ [x])) :
    SameItems calls :=
  fun c d hc hd => h c d (List.mem_append_left _ hc) (List.mem_append_left _ hd)

/-- Constraints on record are fixing and were added under their names. -/
theorem mem_of_onRecord
    (h : onRecord calls id = some c) :
    c.isFixing = true ∧ c.id = id ∧ .add c ∈ calls := by
  induction calls using List.reverseRecOn generalizing id c with
  | nil =>
      cases h
  | append_singleton calls x ih =>
      have hearlier : onRecord calls id = some c →
          c.isFixing = true ∧ c.id = id ∧ .add c ∈ calls ++ [x] := fun hid =>
        ⟨(ih hid).1, (ih hid).2.1, List.mem_append_left _ (ih hid).2.2⟩
      rw [onRecord_concat] at h
      cases x with
      | add d =>
          simp only [enter] at h
          split at h
          · next hadd =>
            cases hold : onRecord calls id with
            | some d' =>
                rw [hold] at h
                exact hearlier (hold.trans h)
            | none =>
                rw [hold, Option.getD_none, Option.some.injEq] at h
                exact h ▸ ⟨hadd.2, hadd.1.symm, List.mem_append_right _ List.mem_cons_self⟩
          · exact hearlier h
      | remove i =>
          simp only [enter] at h
          split at h
          · cases h
          · exact hearlier h
      | isFixed v => exact hearlier h
      | needsSize e axis => exact hearlier h
      | force e axis on => exact hearlier h
      | forget e => exact hearlier h

/-- An analysis tracks what is on record, and stores nothing that was not added. -/
structure Follows (calls : List (Call K)) (n : Necessity) : Prop where
  kept : n.Kept
  overlay : ∀ id, n.overlay id = (onRecord calls id).map Constraint.items
  stores : ∀ id items, n.Stores id items → ∃ c, .add c ∈ calls ∧ c.id = id ∧ c.items = items

theorem Follows.refresh
    (h : Follows calls n) :
    Follows calls n.refresh where
  kept := h.kept.refresh.1
  overlay := by
    rw [h.kept.refresh.2.1]
    exact h.overlay
  stores := fun id items hid => h.stores id items (h.kept.stores_refresh hid)

theorem Follows.concat
    {x : Call K}
    (h : Follows calls n)
    (hsame : SameItems (calls ++ [x])) :
    Follows (calls ++ [x]) (n.call x) := by
  have hstores : ∀ id items, n.Stores id items →
      ∃ c, .add c ∈ calls ++ [x] ∧ c.id = id ∧ c.items = items := fun id items hid => by
    obtain ⟨c, hc, hboth⟩ := h.stores id items hid
    exact ⟨c, List.mem_append_left _ hc, hboth⟩
  have hlast : x ∈ calls ++ [x] := List.mem_append_right _ List.mem_cons_self
  -- a question only makes the waiting changes
  have hasked : (∀ id, onRecord (calls ++ [x]) id = onRecord calls id) →
      Follows (calls ++ [x]) n.refresh := fun hrecord =>
    ⟨h.refresh.kept, fun id => (h.refresh.overlay id).trans (congrArg _ (hrecord id).symm),
      fun id items hid => hstores id items (h.kept.stores_refresh hid)⟩
  cases x with
  | add c =>
      have hitems : ∀ items, n.Stores c.id items → items = c.items := fun items hid => by
        obtain ⟨d, hd, hname, rfl⟩ := hstores c.id items hid
        exact hsame d c hd hlast hname
      refine ⟨h.kept.add c, fun id => ?_, fun id items hid => ?_⟩
      · refine (h.kept.overlay_add hitems id).trans ?_
        simp only [onRecord_concat, enter]
        split
        · next hadd =>
          cases hold : onRecord calls id with
          | none => rfl
          | some d =>
              obtain ⟨_, hname, hd⟩ := mem_of_onRecord hold
              have hsame := hsame d c (List.mem_append_left _ hd) hlast (hname.trans hadd.1)
              exact congrArg some hsame.symm
        · exact h.overlay id
      · rcases stores_add hid with hold | ⟨rfl, rfl⟩
        · exact hstores id items hold
        · exact ⟨c, hlast, rfl, rfl⟩
  | remove i =>
      refine ⟨h.kept.remove i, fun id => ?_, fun id items hid => ?_⟩
      · refine (h.kept.overlay_remove i id).trans ?_
        simp only [onRecord_concat, enter]
        split
        · rfl
        · exact h.overlay id
      · exact hstores id items (stores_remove hid)
  | isFixed v => exact hasked (onRecord_concat _ _)
  | needsSize e axis => exact hasked (onRecord_concat _ _)
  | force e axis on =>
      have hrecord := onRecord_concat calls (.force e axis on)
      exact ⟨⟨h.kept.additions, h.kept.removals, h.kept.fixed⟩,
        fun id => (h.overlay id).trans (congrArg _ (hrecord id).symm), hstores⟩
  | forget e =>
      have hrecord := onRecord_concat calls (.forget e)
      exact ⟨⟨h.kept.additions, h.kept.removals, h.kept.fixed⟩,
        fun id => (h.overlay id).trans (congrArg _ (hrecord id).symm), hstores⟩

theorem follows_run
    (h : SameItems calls) :
    Follows calls (run ∅ calls) := by
  induction calls using List.reverseRecOn with
  | nil =>
      exact ⟨kept_empty, fun _ => rfl, fun _ _ hid => nomatch hid⟩
  | append_singleton calls x ih =>
      rw [run_concat]
      exact (ih h.of_concat).concat h

theorem Follows.isFixed_iff
    (h : Follows calls n)
    (v : Variable) :
    (n.isFixed v).1 = true ↔ Determined (ItemOnRecord calls) v := by
  rw [h.kept.isFixed_iff]
  refine Determined.congr fun item => ?_
  constructor
  · rintro ⟨id, items, hid, hitem⟩
    obtain ⟨c, hc, rfl⟩ := Option.map_eq_some_iff.1 ((h.overlay id).symm.trans hid)
    exact ⟨id, c, hc, hitem⟩
  · rintro ⟨id, c, hc, hitem⟩
    exact ⟨id, c.items, (h.overlay id).trans (congrArg _ hc), hitem⟩

/--
After any calls the fixed variables are the least set that the items on record and the boxes
determine.  The analysis takes no more sweeps than it has items, and it gives the same answers
after any other calls that leave the same items on record.
-/
theorem isFixed_run_iff
    (h : SameItems calls) :
    (∀ v, ((run ∅ calls).isFixed v).1 = true ↔ Determined (ItemOnRecord calls) v) ∧
      (∃ n ≤ (run ∅ calls).refresh.active.values.flatten.length,
        (run ∅ calls).refresh.fixed =
            (Fixed.sweeps (∅, (run ∅ calls).refresh.active.values.flatten) n).1 ∧
          Fixed.sweeps (∅, (run ∅ calls).refresh.active.values.flatten) (n + 1) =
            Fixed.sweeps (∅, (run ∅ calls).refresh.active.values.flatten) n) ∧
      ∀ more : List (Call K), SameItems more →
        (∀ item, ItemOnRecord more item ↔ ItemOnRecord calls item) →
        ∀ v, ((run ∅ more).isFixed v).1 = ((run ∅ calls).isFixed v).1 := by
  have hfollows := follows_run h
  refine ⟨hfollows.isFixed_iff, ?_, fun more hmore hrecord v => ?_⟩
  · obtain ⟨n, hn, hsettled, hstable⟩ :=
      Fixed.exists_settle_eq_sweeps ∅ (run ∅ calls).refresh.active.values.flatten
    exact ⟨n, hn, hfollows.refresh.kept.fixed.trans hsettled, hstable⟩
  · rw [Bool.eq_iff_iff, hfollows.isFixed_iff, (follows_run hmore).isFixed_iff]
    exact Determined.congr hrecord

/--
An edge is fixed and two extents are related.  One of the extents is fixed, withdrawn after a
question, and added again before the next one.
-/
def laggingCalls : List (Call Rat) :=
  let extent : Constraint Rat := .toValue ⟨3⟩ ⟨⟨2⟩, .width⟩ .equal 10
  [.add (.between ⟨2⟩ ⟨⟨1⟩, .width⟩ .equal ⟨⟨2⟩, .width⟩), .add extent,
    .isFixed ⟨⟨1⟩, .width⟩, .remove ⟨3⟩, .add (.toValue ⟨1⟩ ⟨⟨1⟩, .left⟩ .equal 0), .add extent]

theorem sameItems_laggingCalls :
    SameItems laggingCalls := by
  intro c d hc hd hid
  simp only [laggingCalls, List.mem_cons, Call.add.injEq, List.not_mem_nil, reduceCtorEq,
    false_or, or_false] at hc hd
  rcases hc with rfl | rfl | rfl | rfl <;> rcases hd with rfl | rfl | rfl | rfl <;>
    first | rfl | cases hid

theorem isFixed_run_iff_lagging :
    SameItems laggingCalls ∧ ((run ∅ laggingCalls).isFixed ⟨⟨1⟩, .centerX⟩).1 = true ∧
      Determined (ItemOnRecord laggingCalls) ⟨⟨1⟩, .centerX⟩ := by
  have hfixed : ((run ∅ laggingCalls).isFixed ⟨⟨1⟩, .centerX⟩).1 = true := by
    decide +kernel
  exact ⟨sameItems_laggingCalls, hfixed,
    ((isFixed_run_iff sameItems_laggingCalls).1 ⟨⟨1⟩, .centerX⟩).1 hfixed⟩

end Calls

end Necessity
end LinearLayout
