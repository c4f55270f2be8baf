import LinearLayout.Proofs.Layout.Union

/-!
# Only questions read the analysis

Requests, splits and joins tell the analysis of a layout what has happened, but never ask it.  Two
layouts that differ in their analyses only therefore answer everything else alike and stay so, and
a session goes on in the same way whether or not questions are asked in it.
-/

namespace LinearLayout

/-- The request asks whether a size has to be measured. -/
def Request.isQuestion {K : Type} : Request K → Bool
  | .needsSize _ _ => true
  | _ => false

/-- The event asks whether a size has to be measured. -/
def Event.isQuestion {K : Type} [Scalar K] : Event K → Bool
  | .ask _ request => request.isQuestion
  | _ => false

namespace Layout

variable {K : Type} [Scalar K] {l m other : Layout K} {c : Constraint K} {e : Entity}

/-- Two layouts differ in their analyses at most. -/
def Alike (l m : Layout K) : Prop :=
  ∃ n, m = { l with necessity := n }

/-- Two results are the same, and the layouts that come with them are alike. -/
def SameOutcome {α : Type} (a b : α × Layout K) : Prop :=
  ∃ n, b = (a.1, { a.2 with necessity := n })

theorem Alike.refl
    (l : Layout K) :
    Alike l l :=
  ⟨l.necessity, rfl⟩

theorem Alike.symm
    (h : Alike l m) :
    Alike m l := by
  obtain ⟨n, rfl⟩ := h
  exact ⟨l.necessity, rfl⟩

theorem Alike.trans
    (h : Alike l m)
    (hother : Alike m other) :
    Alike l other := by
  obtain ⟨n, rfl⟩ := h
  obtain ⟨k, rfl⟩ := hother
  exact ⟨k, rfl⟩

theorem SameOutcome.alike
    {α : Type} {a b : α × Layout K}
    (h : SameOutcome a b) :
    Alike a.2 b.2 := by
  obtain ⟨n, rfl⟩ := h
  exact ⟨n, rfl⟩

theorem SameOutcome.fst
    {α : Type} {a b : α × Layout K}
    (h : SameOutcome a b) :
    b.1 = a.1 := by
  obtain ⟨n, rfl⟩ := h
  rfl

theorem SameOutcome.intro
    {α : Type} {a b : α × Layout K}
    (hfst : b.1 = a.1)
    (h : Alike a.2 b.2) :
    SameOutcome a b := by
  obtain ⟨n, hn⟩ := h
  exact ⟨n, Prod.ext hfst hn⟩

/-- Folds whose steps have the same outcome have the same outcome. -/
theorem SameOutcome.foldl
    {α β : Type} {step : α × Layout K → β → α × Layout K}
    (hstep : ∀ a b x, SameOutcome a b → SameOutcome (step a x) (step b x))
    {a b : α × Layout K}
    (h : SameOutcome a b)
    (xs : List β) :
    SameOutcome (xs.foldl step a) (xs.foldl step b) := by
  induction xs generalizing a b with
  | nil =>
      exact h
  | cons x xs ih =>
      exact ih (hstep a b x h)

section Constraints

variable {id : ConstraintId}

theorem Alike.install
    (h : Alike l m)
    (c : Constraint K) :
    SameOutcome (l.install c) (m.install c) := by
  obtain ⟨n, rfl⟩ := h
  have hforeign : unmanaged? { l with necessity := n } c = l.unmanaged? c := rfl
  unfold Layout.install
  rw [hforeign]
  cases l.unmanaged? c with
  | some e => exact ⟨n, rfl⟩
  | none =>
      dsimp only
      rcases l.solver.addAll [] c.equations with ⟨cause | keys, s⟩
      · exact ⟨n, rfl⟩
      · exact ⟨n.add c, rfl⟩

theorem Alike.without
    (h : Alike l m)
    (id : ConstraintId) :
    Alike (l.without id) (m.without id) := by
  obtain ⟨n, rfl⟩ := h
  unfold Layout.without uninstall
  cases l.constraints.get? id with
  | none => exact ⟨n, rfl⟩
  | some a => exact ⟨n.remove id, rfl⟩

theorem Alike.remove
    (h : Alike l m)
    (id : ConstraintId) :
    SameOutcome (l.remove id) (m.remove id) := by
  obtain ⟨n, rfl⟩ := h
  refine .intro ?_ ?_
  · rw [remove_fst, remove_fst]
    rfl
  · rw [remove_snd, remove_snd]
    exact Alike.without ⟨n, rfl⟩ id

theorem Alike.removeAll
    (h : Alike l m)
    (ids : List ConstraintId) :
    Alike (l.removeAll ids) (m.removeAll ids) := by
  induction ids generalizing l m with
  | nil =>
      exact h
  | cons id ids ih =>
      exact ih (h.remove id).alike

theorem Alike.dropForeign
    (h : Alike l m) :
    Alike l.dropForeign m.dropForeign := by
  obtain ⟨n, rfl⟩ := h
  exact Alike.removeAll ⟨n, rfl⟩ _

theorem Alike.add
    (h : Alike l m)
    (c : Constraint K) :
    SameOutcome (l.add c) (m.add c) := by
  have hinstalled := h.install c
  obtain ⟨n, rfl⟩ := h
  have hactive : isActive { l with necessity := n } c.id = l.isActive c.id := rfl
  unfold Layout.add
  rw [hactive]
  split
  · exact ⟨n, rfl⟩
  · exact hinstalled

theorem Alike.update
    (h : Alike l m)
    (id : ConstraintId) (edit : Constraint K → Constraint K) :
    SameOutcome (l.update id edit) (m.update id edit) := by
  have hwithout := h.without id
  obtain ⟨n, rfl⟩ := h
  have hconstraint : constraint? { l with necessity := n } id = l.constraint? id := rfl
  unfold Layout.update
  rw [uninstall_eq, uninstall_eq, hconstraint]
  cases l.constraint? id with
  | none => exact ⟨n, rfl⟩
  | some c =>
      obtain ⟨k, hinstalled⟩ := hwithout.install (edit c)
      simp only [Option.map_some, hinstalled]
      rcases (l.without id).install (edit c) with ⟨cause | _, u⟩
      · exact ⟨k, rfl⟩
      · exact ⟨k, rfl⟩

theorem Alike.removeExternal
    (h : Alike l m)
    (e : Entity) :
    SameOutcome (l.removeExternal e) (m.removeExternal e) := by
  have hids : (m.ownedBy e).filter (fun id => !m.system.contains id) =
      (l.ownedBy e).filter fun id => !l.system.contains id := by
    obtain ⟨n, rfl⟩ := h
    rfl
  have hstart : SameOutcome (([] : List (Constraint K)), l) ([], m) := .intro rfl h
  unfold Layout.removeExternal
  rw [hids]
  refine SameOutcome.foldl (fun a b id hab => ?_) hstart _
  obtain ⟨n, rfl⟩ := hab
  have hafter : Alike a.2 { a.2 with necessity := n } := ⟨n, rfl⟩
  obtain ⟨k, hremoved⟩ := hafter.remove id
  dsimp only
  rw [hremoved]
  exact ⟨k, rfl⟩

end Constraints

section Requests

variable {supply : IdSupply} {axis : Axis} {cs : List (Constraint K)}

theorem Alike.adopt
    (h : Alike l m)
    (e : Entity) (size : IntrinsicSize K) (sizes : PerAxis (List ConstraintId)) :
    Alike (l.adopt e size sizes) (m.adopt e size sizes) := by
  obtain ⟨n, rfl⟩ := h
  exact ⟨_, rfl⟩

theorem Alike.manage
    (h : Alike l m)
    (e : Entity) :
    Alike (l.manage e) (m.manage e) := by
  have hadopted := h.adopt e (.ofSettings l.settings.intrinsic) (.both [])
  obtain ⟨n, rfl⟩ := h
  have hmanaged : isManaged { l with necessity := n } e = l.isManaged e := rfl
  unfold Layout.manage
  rw [hmanaged]
  split
  · exact ⟨n, rfl⟩
  · exact hadopted

theorem Alike.release
    (h : Alike l m)
    (e : Entity) :
    Alike (l.release e) (m.release e) := by
  obtain ⟨n, rfl⟩ := h
  cases hr : l.entities.get? e with
  | none =>
      rw [release_of_get?_eq_none hr, release_of_get?_eq_none (l := { l with necessity := n }) hr]
      exact ⟨n, rfl⟩
  | some r =>
      rw [release_of_get? hr, release_of_get? (l := { l with necessity := n }) hr]
      have hstruck : Alike (l.struck e r) (struck { l with necessity := n } e r) := ⟨n, rfl⟩
      obtain ⟨k, hremoved⟩ := hstruck.removeAll (l.ownedBy e)
      refine Alike.dropForeign ⟨k.forget e, ?_⟩
      have hlist : ownedBy { l with necessity := n } e = l.ownedBy e := rfl
      unfold stripped
      rw [hlist, hremoved]

theorem Alike.pin
    (h : Alike l m)
    (supply : IdSupply) (v : Variable) (x : K) :
    ∃ n, m.pin supply v x = ((l.pin supply v x).1,
      { (l.pin supply v x).2.1 with necessity := n }, (l.pin supply v x).2.2) := by
  have hupdated := fun id edit => h.update id edit
  have hinstalled := fun c => h.install c
  obtain ⟨n, rfl⟩ := h
  have hmanaged : isManaged { l with necessity := n } v.entity = l.isManaged v.entity := rfl
  have hpin : pin? { l with necessity := n } v = l.pin? v := rfl
  unfold Layout.pin
  rw [hmanaged, hpin]
  split
  · cases l.pin? v with
    | some id =>
        obtain ⟨k, hmoved⟩ := hupdated id fun c => c.withOffset x
        simp only [movePin, hmoved]
        rcases l.update id (fun c => c.withOffset x) with ⟨cause | _, u⟩
        · exact ⟨k, rfl⟩
        · exact ⟨k, rfl⟩
    | none =>
        obtain ⟨k, hnew⟩ := hinstalled (.toValue supply.take.1 v .equal x)
        simp only [newPin, hnew]
        rcases l.install (.toValue supply.take.1 v .equal x) with ⟨cause | _, u⟩
        · exact ⟨k, rfl⟩
        · exact ⟨k, rfl⟩
  · exact ⟨n, rfl⟩

theorem Alike.unpin
    (h : Alike l m)
    (v : Variable) :
    Alike (l.unpin v) (m.unpin v) := by
  obtain ⟨n, rfl⟩ := h
  unfold Layout.unpin
  cases hv : l.pins.get? v with
  | none => exact ⟨n, rfl⟩
  | some id =>
      have herased : Alike { l with pins := l.pins.erase v }
          { l with pins := l.pins.erase v, necessity := n } := ⟨n, rfl⟩
      exact (herased.remove id).alike

theorem Alike.installSystem
    (h : Alike l m)
    (cs : List (Constraint K)) :
    ∃ n, m.installSystem cs = ((l.installSystem cs).1, (l.installSystem cs).2.1,
      { (l.installSystem cs).2.2 with necessity := n }) := by
  induction cs generalizing l m with
  | nil =>
      obtain ⟨n, rfl⟩ := h
      exact ⟨n, rfl⟩
  | cons c cs ih =>
      obtain ⟨k, hinstalled⟩ := h.install c
      rcases hfirst : l.install c with ⟨cause | _, u⟩
      · rw [hfirst] at hinstalled
        have hkept : Alike u { u with necessity := k } := ⟨k, rfl⟩
        obtain ⟨n, hrest⟩ := ih hkept
        rw [installSystem_of_error hfirst, installSystem_of_error hinstalled, hrest]
        exact ⟨n, rfl⟩
      · rw [hfirst] at hinstalled
        have hmarked : Alike (u.markSystem c.id) (markSystem { u with necessity := k } c.id) :=
          ⟨k, rfl⟩
        obtain ⟨n, hrest⟩ := ih hmarked
        rw [installSystem_of_ok hfirst, installSystem_of_ok hinstalled, hrest]
        exact ⟨n, rfl⟩

theorem Alike.changeIntrinsic
    (h : Alike l m)
    (supply : IdSupply) (e : Entity) (axis : Axis) (change : IntrinsicChange K) :
    ∃ n, m.changeIntrinsic supply e axis change = ((l.changeIntrinsic supply e axis change).1,
      { (l.changeIntrinsic supply e axis change).2.1 with necessity := n },
      (l.changeIntrinsic supply e axis change).2.2) := by
  obtain ⟨n, rfl⟩ := h
  cases hr : l.entities.get? e with
  | none =>
      rw [changeIntrinsic_of_get?_eq_none hr,
        changeIntrinsic_of_get?_eq_none (l := { l with necessity := n }) hr]
      exact ⟨n, rfl⟩
  | some r =>
      rw [changeIntrinsic_of_get? hr, changeIntrinsic_of_get? (l := { l with necessity := n }) hr]
      generalize (r.intrinsic.get axis).change change = after
      split
      · exact ⟨n, rfl⟩
      · have hemptied : Alike ((l.storeIntrinsic e axis after).storeSizeConstraints e axis [])
            ((storeIntrinsic { l with necessity := n } e axis after).storeSizeConstraints e axis
              []) := ⟨n, rfl⟩
        obtain ⟨k, hremoved⟩ := hemptied.removeAll (r.sizeConstraints.get axis)
        have hcleared : Alike (l.cleared e axis r after)
            (cleared { l with necessity := n } e axis r after) := by
          refine ⟨k.force e axis after.requiresMeasurement, ?_⟩
          unfold cleared
          rw [hremoved]
        obtain ⟨k, hinstalled⟩ := hcleared.installSystem (after.constraints supply e axis).1
        simp only [hinstalled]
        exact ⟨k, rfl⟩

/-- A question only brings the analysis up to date. -/
theorem alike_needsSize
    (l : Layout K) (e : Entity) (axis : Axis) :
    Alike l (l.needsSize e axis).2 := by
  unfold Layout.needsSize
  split
  · exact ⟨_, rfl⟩
  · exact .refl l

/-- No request depends on the analysis. -/
theorem Alike.serve
    (h : Alike l m)
    (supply : IdSupply) (request : Request K) :
    ∃ n, m.serve supply request =
      ({ (l.serve supply request).1 with necessity := n }, (l.serve supply request).2) := by
  have hplain : ∀ {u w : Layout K}, Alike u w →
      ∃ n, (w, supply) = ({ u with necessity := n }, supply) := fun hu => by
    obtain ⟨n, rfl⟩ := hu
    exact ⟨n, rfl⟩
  cases request with
  | manage e => exact hplain (h.manage e)
  | release e => exact hplain (h.release e)
  | remove id => exact hplain (h.remove id).alike
  | update id edit => exact hplain (h.update id edit).alike
  | pin v x =>
      obtain ⟨n, hpinned⟩ := h.pin supply v x
      exact ⟨n, congrArg Prod.snd hpinned⟩
  | unpin v => exact hplain (h.unpin v)
  | changeIntrinsic e axis change =>
      obtain ⟨n, hchanged⟩ := h.changeIntrinsic supply e axis change
      exact ⟨n, congrArg Prod.snd hchanged⟩
  | removeExternal e => exact hplain (h.removeExternal e).alike
  | needsSize e axis =>
      exact hplain (((alike_needsSize l e axis).symm.trans h).trans (alike_needsSize m e axis))

/-- Nothing but an answer to a question depends on the analysis. -/
theorem Alike.reply
    (h : Alike l m)
    (supply : IdSupply) {request : Request K} (hrequest : request.isQuestion = false) :
    m.reply supply request = l.reply supply request := by
  cases request with
  | manage e => rfl
  | release e => rfl
  | remove id => exact congrArg (fun c => Reply.constraints c.toList) (h.remove id).fst
  | update id edit => exact congrArg Reply.outcome (h.update id edit).fst
  | pin v x =>
      obtain ⟨n, hpinned⟩ := h.pin supply v x
      exact congrArg (fun result => Reply.outcome result.1) hpinned
  | unpin v => rfl
  | changeIntrinsic e axis change =>
      obtain ⟨n, hchanged⟩ := h.changeIntrinsic supply e axis change
      exact congrArg (fun result => Reply.outcome result.1) hchanged
  | removeExternal e => exact congrArg Reply.constraints (h.removeExternal e).fst
  | needsSize e axis => cases hrequest

end Requests

section Parts

theorem Alike.takeOwned
    (h : Alike l m)
    (e : Entity) :
    SameOutcome (l.takeOwned e) (m.takeOwned e) := by
  rw [takeOwned_eq, takeOwned_eq]
  obtain ⟨n, rfl⟩ := h
  refine .intro rfl ?_
  exact Alike.removeAll ⟨n, rfl⟩ _

theorem Alike.takeAllOwned
    (h : Alike l m)
    (es : List Entity) :
    SameOutcome (l.takeAllOwned es) (m.takeAllOwned es) := by
  have hstart : SameOutcome (([] : List (Moving K)), l) ([], m) := .intro rfl h
  refine SameOutcome.foldl (fun a b e hab => ?_) hstart es
  obtain ⟨n, rfl⟩ := hab
  obtain ⟨k, htaken⟩ := Alike.takeOwned (l := a.2) (m := { a.2 with necessity := n }) ⟨n, rfl⟩ e
  dsimp only
  rw [htaken]
  exact ⟨k, rfl⟩

theorem Alike.transfer
    {p q : Layout K × Layout K}
    (hrest : Alike p.1 q.1)
    (hpart : Alike p.2 q.2)
    (e : Entity) :
    Alike (transfer p e).1 (transfer q e).1 ∧
      Alike (transfer p e).2 (transfer q e).2 := by
  obtain ⟨n, hn⟩ := hrest
  have hentities : q.1.entities = p.1.entities := by rw [hn]
  cases hr : p.1.entities.get? e with
  | none =>
      rw [transfer_of_get?_eq_none hr, transfer_of_get?_eq_none (hentities.symm ▸ hr)]
      exact ⟨⟨n, hn⟩, hpart⟩
  | some r =>
      rw [transfer_of_get? hr, transfer_of_get? (hentities.symm ▸ hr), hn]
      exact ⟨⟨_, rfl⟩, hpart.adopt e _ _⟩

theorem Alike.transferAll
    {p q : Layout K × Layout K}
    (hrest : Alike p.1 q.1)
    (hpart : Alike p.2 q.2)
    (es : List Entity) :
    Alike (es.foldl Layout.transfer p).1 (es.foldl Layout.transfer q).1 ∧
      Alike (es.foldl Layout.transfer p).2 (es.foldl Layout.transfer q).2 := by
  induction es generalizing p q with
  | nil =>
      exact ⟨hrest, hpart⟩
  | cons e es ih =>
      obtain ⟨hnext, hnextPart⟩ := Alike.transfer hrest hpart e
      exact ih hnext hnextPart

theorem Alike.receive
    (h : Alike l m)
    (moving : Moving K) :
    Alike (l.receive moving) (m.receive moving) := by
  obtain ⟨k, hinstalled⟩ := h.install moving.constraint
  unfold Layout.receive
  rw [hinstalled]
  rcases l.install moving.constraint with ⟨cause | _, u⟩
  · exact ⟨k, rfl⟩
  · dsimp only
    split
    · exact ⟨k, rfl⟩
    · exact ⟨k, rfl⟩

theorem Alike.receiveAll
    (h : Alike l m)
    (ms : List (Moving K)) :
    Alike (ms.foldl Layout.receive l) (ms.foldl Layout.receive m) := by
  induction ms generalizing l m with
  | nil =>
      exact h
  | cons moving ms ih =>
      exact ih (h.receive moving)

/-- No split depends on the analysis. -/
theorem Alike.split
    (h : Alike l m)
    (root : Entity) (tree : ChildRelation) :
    Alike (l.split root tree).1 (m.split root tree).1 ∧
      Alike (l.split root tree).2 (m.split root tree).2 := by
  obtain ⟨k, htaken⟩ := h.takeAllOwned (tree.subtree root)
  obtain ⟨n, rfl⟩ := h
  unfold Layout.split
  dsimp only
  rw [htaken]
  generalize l.takeAllOwned (tree.subtree root) = taken
  have hmoved : Alike taken.2 { taken.2 with necessity := k } := ⟨k, rfl⟩
  obtain ⟨⟨i, hrest⟩, hpart⟩ := Alike.transferAll (p := (taken.2, new l.settings))
    (q := ({ taken.2 with necessity := k }, new l.settings)) hmoved (.refl _)
    (tree.subtree root)
  obtain ⟨j, hpart⟩ := hpart.receiveAll taken.1
  dsimp only
  rw [hrest, hpart]
  exact ⟨Alike.dropForeign ⟨i, rfl⟩, ⟨j, rfl⟩⟩

end Parts

section Join

theorem Alike.joinEntities
    (h : Alike l m)
    (other : Layout K) :
    SameOutcome (l.joinEntities other) (m.joinEntities other) := by
  have hstart : SameOutcome (([] : List ConstraintId), l) ([], m) := .intro rfl h
  refine SameOutcome.foldl (fun a b entry hab => ?_) hstart other.entities.entries
  obtain ⟨n, rfl⟩ := hab
  have hmanaged : isManaged { a.2 with necessity := n } entry.1 = a.2.isManaged entry.1 := rfl
  dsimp only
  rw [hmanaged]
  split
  · exact ⟨n, rfl⟩
  · exact ⟨_, rfl⟩

theorem Alike.joinConstraints
    (h : Alike l m)
    (other : Layout K) (superseded : List ConstraintId) :
    SameOutcome (l.joinConstraints other superseded) (m.joinConstraints other superseded) := by
  have hstart : SameOutcome (([] : List ConstraintId), l) ([], m) := .intro rfl h
  refine SameOutcome.foldl (fun a b entry hab => ?_) hstart other.constraints.entries
  obtain ⟨n, rfl⟩ := hab
  have hafter : Alike a.2 { a.2 with necessity := n } := ⟨n, rfl⟩
  obtain ⟨k, hinstalled⟩ := hafter.install entry.2.constraint
  dsimp only
  split
  · exact ⟨n, rfl⟩
  · rw [hinstalled]
    rcases a.2.install entry.2.constraint with ⟨cause | _, u⟩
    · exact ⟨k, rfl⟩
    · dsimp only
      split
      · exact ⟨k, rfl⟩
      · exact ⟨k, rfl⟩

theorem Alike.joinPins
    (h : Alike l m)
    (pins : List (Variable × ConstraintId)) :
    Alike (l.joinPins pins) (m.joinPins pins) := by
  induction pins generalizing l m with
  | nil =>
      exact h
  | cons pin pins ih =>
      obtain ⟨n, rfl⟩ := h
      have hactive : isActive { l with necessity := n } pin.2 = l.isActive pin.2 := rfl
      rw [Layout.joinPins, Layout.joinPins, List.foldl_cons, List.foldl_cons, hactive]
      split
      · exact ih ⟨n, rfl⟩
      · exact ih ⟨n, rfl⟩

/-- No join depends on the analysis of either layout. -/
theorem Alike.join
    {u w : Layout K}
    (h : Alike l m)
    (hother : Alike u w) :
    SameOutcome (l.join u) (m.join w) := by
  obtain ⟨k, rfl⟩ := hother
  have hsource : m.join { u with necessity := k } = m.join u := rfl
  rw [hsource]
  obtain ⟨i, hjoined⟩ := h.joinEntities u
  obtain ⟨n, rfl⟩ := h
  unfold Layout.join
  rw [hjoined]
  generalize l.joinEntities u = joined
  have hentities : Alike joined.2 { joined.2 with necessity := i } := ⟨i, rfl⟩
  dsimp only
  generalize hsuperseded : joined.1 ++ ((u.pins.entries.filter fun pin =>
    l.pins.contains pin.1).map Prod.snd) = superseded
  obtain ⟨j, hconstraints⟩ := hentities.joinConstraints u superseded
  rw [hconstraints]
  refine .intro rfl ?_
  exact Alike.joinPins ⟨j, rfl⟩ _

end Join

end Layout

namespace Session

variable {K : Type} [Scalar K] {s t : Session K} {h : Handle} {l m : Layout K}

/-- Two sessions differ in the analyses of their layouts at most. -/
structure Alike (s t : Session K) : Prop where
  ids : t.ids = s.ids
  held : t.held = s.held
  next : t.pool.next = s.pool.next
  layouts : ∀ h, Option.Rel Layout.Alike (s.layout? h) (t.layout? h)

theorem Alike.refl
    (s : Session K) :
    Alike s s where
  ids := rfl
  held := rfl
  next := rfl
  layouts h := by
    cases s.layout? h with
    | none => exact .none
    | some l => exact .some (.refl l)

theorem Alike.setLayout
    (hs : Alike s t)
    (h : Handle) (hl : Layout.Alike l m) :
    Alike (s.setLayout h l) (t.setLayout h m) where
  ids := hs.ids
  held := hs.held
  next := hs.next
  layouts other := by
    rw [layout?_setLayout, layout?_setLayout]
    split
    · exact .some hl
    · exact hs.layouts other

theorem Alike.share
    (hs : Alike s t)
    (hl : Layout.Alike l m) :
    Alike { s with pool := (s.pool.share l).2 } { t with pool := (t.pool.share m).2 } where
  ids := hs.ids
  held := hs.held
  next := congrArg (· + 1) hs.next
  layouts other := by
    simp only [layout?, Pool.get?, Pool.share, OrderedMap.get?_insert, hs.next]
    split
    · exact .some hl
    · exact hs.layouts other

/-- Both sessions have a layout under a handle, or none of them has. -/
theorem Alike.layout?_cases
    (hs : Alike s t)
    (h : Handle) :
    (s.layout? h = none ∧ t.layout? h = none) ∨
      ∃ l m, s.layout? h = some l ∧ t.layout? h = some m ∧ Layout.Alike l m := by
  have hrel := hs.layouts h
  cases hl : s.layout? h with
  | none =>
      cases hm : t.layout? h with
      | none => exact Or.inl ⟨rfl, rfl⟩
      | some m =>
          rw [hl, hm] at hrel
          cases hrel
  | some l =>
      cases hm : t.layout? h with
      | none =>
          rw [hl, hm] at hrel
          cases hrel
      | some m =>
          rw [hl, hm] at hrel
          cases hrel with
          | some halike => exact Or.inr ⟨l, m, rfl, rfl, halike⟩

theorem Alike.get?_cases
    (hs : Alike s t)
    (h : Handle) :
    (s.pool.get? h = none ∧ t.pool.get? h = none) ∨
      ∃ l m, s.pool.get? h = some l ∧ t.pool.get? h = some m ∧ Layout.Alike l m :=
  hs.layout?_cases h

/-- A question leaves everything but an analysis as it is. -/
theorem Alike.question
    (hs : Alike s t)
    {event : Event K} (hquestion : event.isQuestion = true) :
    Alike (s.step event) t := by
  cases event with
  | ask h request =>
      cases request with
      | needsSize e axis =>
          show Alike (s.ask h (.needsSize e axis)) t
          unfold Session.ask
          rcases hs.layout?_cases h with ⟨hl, _⟩ | ⟨l, m, hl, hm, halike⟩
          · rw [hl]
            exact hs
          · rw [hl]
            refine ⟨hs.ids, hs.held, hs.next, fun other => ?_⟩
            show Option.Rel Layout.Alike ((s.setLayout h (l.needsSize e axis).2).layout? other)
              (t.layout? other)
            rw [layout?_setLayout]
            split
            · next heq =>
              rw [heq, hm]
              exact .some ((Layout.alike_needsSize l e axis).symm.trans halike)
            · exact hs.layouts other
      | _ => cases hquestion
  | _ => cases hquestion

theorem Alike.ask
    (hs : Alike s t)
    (h : Handle) (request : Request K) :
    Alike (s.ask h request) (t.ask h request) := by
  unfold Session.ask
  rcases hs.layout?_cases h with ⟨hl, hm⟩ | ⟨l, m, hl, hm, halike⟩
  · rw [hl, hm]
    exact hs
  · obtain ⟨n, hserved⟩ := halike.serve s.ids request
    have hlayout : Layout.Alike (l.serve s.ids request).1 (m.serve s.ids request).1 := by
      rw [hserved]
      exact ⟨n, rfl⟩
    have hsupply : (m.serve s.ids request).2 = (l.serve s.ids request).2 := by
      rw [hserved]
    have hset := hs.setLayout h hlayout
    rw [hl, hm, hs.ids]
    exact ⟨hsupply, hset.held, hset.next, hset.layouts⟩

theorem Alike.add
    (hs : Alike s t)
    (h : Handle) (index : Nat) (edit : Edit K) :
    Alike (s.add h index edit) (t.add h index edit) := by
  unfold Session.add
  rw [hs.held]
  rcases hs.layout?_cases h with ⟨hl, hm⟩ | ⟨l, m, hl, hm, halike⟩
  · rw [hl, hm]
    exact hs
  · rw [hl, hm]
    cases s.held[index]? with
    | none => exact hs
    | some c => exact hs.setLayout h (halike.add (c.edit edit)).alike

theorem Alike.replace
    (hs : Alike s t)
    (h : Handle) (id : ConstraintId) (index : Nat) (edit : Edit K) :
    Alike (s.replace h id index edit) (t.replace h id index edit) := by
  unfold Session.replace
  rw [hs.held]
  rcases hs.layout?_cases h with ⟨hl, hm⟩ | ⟨l, m, hl, hm, halike⟩
  · rw [hl, hm]
    exact hs
  · rw [hl, hm]
    cases s.held[index]? with
    | none => exact hs
    | some c => exact hs.setLayout h (halike.update id fun _ => c.edit edit).alike

theorem Alike.split
    (hs : Alike s t)
    (h : Handle) (root : Entity) (tree : ChildRelation) :
    Alike (s.split h root tree) (t.split h root tree) := by
  unfold Session.split Pool.split
  rcases hs.get?_cases h with ⟨hl, hm⟩ | ⟨l, m, hl, hm, halike⟩
  · rw [hl, hm]
    exact hs
  · rw [hl, hm]
    obtain ⟨hrest, hpart⟩ := halike.split root tree
    exact (hs.setLayout h hrest).share hpart

theorem Alike.join
    (hs : Alike s t)
    (target source : Handle) :
    Alike (s.join target source) (t.join target source) := by
  unfold Session.join Pool.join
  by_cases hsame : target = source
  · rw [if_pos hsame, if_pos hsame]
    exact hs
  · rw [if_neg hsame, if_neg hsame]
    rcases hs.get?_cases target with ⟨hl, hm⟩ | ⟨l, m, hl, hm, halike⟩
    · rw [hl, hm]
      exact hs
    · rcases hs.get?_cases source with ⟨hu, hw⟩ | ⟨u, w, hu, hw, hother⟩
      · rw [hl, hm, hu, hw]
        exact hs
      · rw [hl, hm, hu, hw]
        have hemptied : Layout.Alike (.new u.settings) (.new w.settings) := by
          obtain ⟨n, rfl⟩ := hother
          exact .refl _
        exact (hs.setLayout source hemptied).setLayout target (halike.join hother).alike

/-- An event has the same effect in both sessions. -/
theorem Alike.step
    (hs : Alike s t)
    (event : Event K) :
    Alike (s.step event) (t.step event) := by
  cases event with
  | make owner items edit =>
      refine ⟨?_, ?_, hs.next, hs.layouts⟩
      · simp only [Session.step, Session.make, hs.ids]
      · simp only [Session.step, Session.make, hs.ids, hs.held]
  | copy h id =>
      refine ⟨hs.ids, ?_, hs.next, hs.layouts⟩
      rcases hs.layout?_cases h with ⟨hl, hm⟩ | ⟨l, m, hl, hm, n, rfl⟩
      · simp only [Session.step, Session.copy, hl, hm, hs.held, Option.bind_none]
      · simp only [Session.step, Session.copy, hl, hm, hs.held, Option.bind_some]
        rfl
  | start settings => exact hs.share (.refl _)
  | ask h request => exact hs.ask h request
  | add h index edit => exact hs.add h index edit
  | replace h id index edit => exact hs.replace h id index edit
  | split h root tree => exact hs.split h root tree
  | join target source => exact hs.join target source

/-- Callers are told the same in both sessions, unless they ask a question. -/
theorem Alike.reply
    (hs : Alike s t)
    {event : Event K} (hevent : event.isQuestion = false) :
    t.reply event = s.reply event := by
  cases event with
  | make owner items edit => rfl
  | copy h id =>
      simp only [Session.reply]
      rcases hs.layout?_cases h with ⟨hl, hm⟩ | ⟨l, m, hl, hm, n, rfl⟩
      · rw [hl, hm]
      · rw [hl, hm]
        rfl
  | start settings =>
      simp only [Session.reply, Pool.share, hs.next]
  | ask h request =>
      simp only [Session.reply]
      rcases hs.layout?_cases h with ⟨hl, hm⟩ | ⟨l, m, hl, hm, halike⟩
      · rw [hl, hm]
        rfl
      · rw [hl, hm, hs.ids]
        exact congrArg some (halike.reply s.ids hevent)
  | add h index edit =>
      simp only [Session.reply, hs.held]
      rcases hs.layout?_cases h with ⟨hl, hm⟩ | ⟨l, m, hl, hm, halike⟩
      · rw [hl, hm]
      · rw [hl, hm]
        cases s.held[index]? with
        | none => rfl
        | some c =>
            have houtcome := (halike.add (c.edit edit)).fst
            simp only [houtcome]
  | replace h id index edit =>
      simp only [Session.reply, hs.held]
      rcases hs.layout?_cases h with ⟨hl, hm⟩ | ⟨l, m, hl, hm, halike⟩
      · rw [hl, hm]
      · rw [hl, hm]
        cases s.held[index]? with
        | none => rfl
        | some c =>
            have houtcome := (halike.update id fun _ => c.edit edit).fst
            simp only [houtcome]
  | split h root tree =>
      simp only [Session.reply, Pool.split]
      rcases hs.get?_cases h with ⟨hl, hm⟩ | ⟨l, m, hl, hm, _⟩
      · rw [hl, hm]
        rfl
      · rw [hl, hm]
        simp [Pool.share, Pool.set, hs.next]
  | join target source =>
      simp only [Session.reply, Pool.join]
      by_cases hsame : target = source
      · rw [if_pos hsame, if_pos hsame]
        rfl
      · rw [if_neg hsame, if_neg hsame]
        rcases hs.get?_cases target with ⟨hl, hm⟩ | ⟨l, m, hl, hm, halike⟩
        · rw [hl, hm]
        · rcases hs.get?_cases source with ⟨hu, hw⟩ | ⟨u, w, hu, hw, hother⟩
          · rw [hl, hm, hu, hw]
          · rw [hl, hm, hu, hw]
            exact congrArg (fun ids => some (Reply.names ids)) (halike.join hother).fst

theorem Alike.keepsApart
    (hs : Alike s t)
    (event : Event K) :
    t.keepsApart event = s.keepsApart event := by
  cases event with
  | join target source =>
      simp only [Session.keepsApart]
      rcases hs.layout?_cases target with ⟨hl, hm⟩ | ⟨l, m, hl, hm, n, rfl⟩
      · rw [hl, hm]
      · rcases hs.layout?_cases source with ⟨hu, hw⟩ | ⟨u, w, hu, hw, k, rfl⟩
        · rw [hl, hm, hu, hw]
        · rw [hl, hm, hu, hw]
          rfl
  | replace h id index edit =>
      simp only [Session.keepsApart, hs.held]
      rcases hs.layout?_cases h with ⟨hl, hm⟩ | ⟨l, m, hl, hm, n, rfl⟩
      · rw [hl, hm]
      · rw [hl, hm]
        cases s.held[index]? <;> rfl
  | _ => rfl

/-- A session goes on in the same way without its questions. -/
theorem Alike.run
    (hs : Alike s t)
    (events : List (Event K)) :
    Alike (s.run events) (t.run (events.filter fun event => !event.isQuestion)) := by
  induction events generalizing s t with
  | nil =>
      exact hs
  | cons event events ih =>
      cases hquestion : event.isQuestion with
      | true =>
          rw [List.filter_cons_of_neg (by simp [hquestion])]
          exact ih (hs.question hquestion)
      | false =>
          rw [List.filter_cons_of_pos (by simp [hquestion])]
          exact ih (hs.step event)

theorem Alike.staysApart
    (hs : Alike s t)
    (events : List (Event K)) :
    t.staysApart (events.filter fun event => !event.isQuestion) = s.staysApart events := by
  induction events generalizing s t with
  | nil =>
      rfl
  | cons event events ih =>
      cases hquestion : event.isQuestion with
      | true =>
          have hkeeps : s.keepsApart event = true := by
            cases event with
            | ask h request => rfl
            | _ => cases hquestion
          rw [List.filter_cons_of_neg (by simp [hquestion]), Session.staysApart, hkeeps,
            Bool.true_and]
          exact ih (hs.question hquestion)
      | false =>
          rw [List.filter_cons_of_pos (by simp [hquestion]), Session.staysApart, Session.staysApart,
            hs.keepsApart, ih (hs.step event)]

end Session
end LinearLayout
