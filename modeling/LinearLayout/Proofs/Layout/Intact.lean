import LinearLayout.Proofs.Layout.Purposes

/-!
# Pins that nobody edits

The constraint of a pin is required and marked when it is made.  Requests, splits and joins keep it
so wherever it is in force; only a caller can change that, by putting a copy of it in force, which
has no mark, or by giving it another priority.  In sessions without such events every pin on record
is intact in all layouts.
-/

namespace LinearLayout
namespace Layout

variable {K : Type} [Scalar K] {l other m : Layout K} {names : Names} {id i : ConstraintId}
  {c : Constraint K} {supply : IdSupply}

section Intact

variable {cs : List (Constraint K)}

/-- Where a constraint is in force, it is required and marked. -/
def Intact (l : Layout K) (id : ConstraintId) : Prop :=
  ∀ c, l.constraint? id = some c → c.strength = .required ∧ id ∈ l.system.toList

theorem intact_of_not_active
    (h : l.isActive id = false) :
    Intact l id := fun c hc => by
  rw [constraint?_eq_none_iff.2 h] at hc
  cases hc

/-- A constraint that is no other than it was, and has its mark, is as intact as it was. -/
theorem Intact.of_le
    (h : Intact l id)
    (hle : ∀ c, m.constraint? id = some c →
      l.constraint? id = some c ∧ (id ∈ l.system.toList → id ∈ m.system.toList)) :
    Intact m id :=
  fun c hc => ⟨(h c (hle c hc).1).1, (hle c hc).2 (h c (hle c hc).1).2⟩

theorem Intact.congr
    (h : Intact l id)
    (hconstraints : m.constraints = l.constraints)
    (hsystem : m.system = l.system) :
    Intact m id := by
  refine h.of_le fun c hc => ⟨?_, fun hid => hsystem ▸ hid⟩
  rwa [constraint?, hconstraints] at hc

theorem Intact.remove
    (h : Intact l id)
    (i : ConstraintId) :
    Intact (l.remove i).2 id := by
  refine h.of_le fun c hc => ?_
  rw [constraint?, constraints_remove, OrderedMap.get?_erase] at hc
  split at hc
  · cases hc
  · next hne =>
    rw [system_remove, OrderedSet.mem_toList_erase]
    exact ⟨hc, fun hid => ⟨hne, hid⟩⟩

theorem Intact.removeAll
    (h : Intact l id)
    (ids : List ConstraintId) :
    Intact (l.removeAll ids) id :=
  removeAll_induction (P := (Intact · id)) (fun _ i hm => hm.remove i) h ids

theorem Intact.without
    (h : Intact l id)
    (i : ConstraintId) :
    Intact (l.without i) id := by
  refine h.of_le fun c hc => ?_
  rw [constraint?, constraints_without, OrderedMap.get?_erase] at hc
  split at hc
  · cases hc
  · exact ⟨hc, fun hid => by rwa [system_without]⟩

theorem Intact.markSystem
    (h : Intact l id)
    (i : ConstraintId) :
    Intact (l.markSystem i) id :=
  h.of_le fun _ hc => ⟨hc, fun hid => OrderedSet.mem_toList_insert.2 (Or.inl hid)⟩

theorem Intact.enforced
    {keys : List EquationKey} {s : Solver K}
    (h : Intact l id)
    (hsame : c.id = id → c.strength = .required ∧ id ∈ l.system.toList) :
    Intact (l.enforced c keys s) id := by
  intro d hd
  by_cases hid : c.id = id
  · rw [constraint?_enforced keys s hid] at hd
    cases hd
    exact hsame hid
  · rw [constraint?_enforced_of_ne keys s hid] at hd
    exact h d hd

theorem Intact.install
    (h : Intact l id)
    (hne : c.id ≠ id) :
    Intact (l.install c).2 id := by
  rcases install_cases l c with ⟨_, s, heq, _⟩ | ⟨keys, s, heq, _⟩
  · rw [heq]
    exact h.congr rfl rfl
  · rw [heq]
    exact h.enforced fun hid => absurd hid hne

/-- What an edit puts in place under the name has to be required and marked. -/
theorem Intact.update
    {edit : Constraint K → Constraint K}
    (h : Intact l id)
    (hedit : ∀ c, l.constraint? i = some c → (edit c).id = id →
      (edit c).strength = .required ∧ id ∈ l.system.toList) :
    Intact (l.update i edit).2 id := by
  rcases update_cases l i edit with ⟨_, heq⟩ | ⟨c, hc, ⟨keys, s, heq, _⟩ | ⟨cause, s, heq⟩⟩
  · rwa [heq]
  · rw [heq]
    refine (h.without i).enforced fun hid => ?_
    rw [system_without]
    exact hedit c hc hid
  · rw [heq]
    by_cases hi : i = id
    · subst hi
      exact intact_of_not_active (isActive_without_self l i)
    · refine (h.without i).of_le fun c hc => ⟨hc, fun hid => ?_⟩
      exact OrderedSet.mem_toList_erase.2 ⟨Ne.symm hi, hid⟩

/-- New values for the constraint itself have to leave its strength alone. -/
theorem Intact.revalue
    {edit : Constraint K → Constraint K}
    (h : Intact l id)
    (hnamed : Named names l)
    (hedit : Constraint.Revalues edit)
    (hstrength : i = id → ∀ c, (edit c).strength = c.strength) :
    Intact (l.update i edit).2 id := by
  refine h.update fun c hc hid => ?_
  have hi : i = id := (hnamed.id_of_revalues hedit hc).symm.trans hid
  rw [hstrength hi]
  exact h c (hi ▸ hc)

theorem Intact.pin
    (h : Intact l id)
    (hnamed : Named names l)
    (supply : IdSupply) (v : Variable) (x : K) :
    Intact (l.pin supply v x).2.1 id := by
  unfold Layout.pin
  split
  · cases hpin : l.pin? v with
    | some i =>
        have hupdated : Intact (l.update i fun c => c.withOffset x).2 id :=
          h.revalue hnamed (Constraint.revalues_withOffset x) fun _ _ => rfl
        dsimp only
        unfold movePin
        split
        · next m heq => rwa [heq] at hupdated
        · next cause m heq =>
          rw [heq] at hupdated
          exact hupdated.congr rfl rfl
    | none =>
        dsimp only
        unfold newPin
        rcases install_cases l (.toValue supply.take.1 v .equal x) with
          ⟨cause, s, heq, _⟩ | ⟨keys, s, heq, _⟩
        · rw [heq]
          exact h.congr rfl rfl
        · rw [heq]
          intro c hc
          by_cases hid : supply.take.1 = id
          · have hnew := constraint?_enforced (l := l)
              (c := .toValue supply.take.1 v .equal x) keys s hid
            cases hc.symm.trans hnew
            exact ⟨rfl, OrderedSet.mem_toList_insert.2 (Or.inr hid.symm)⟩
          · have hold := constraint?_enforced_of_ne (l := l)
              (c := .toValue supply.take.1 v .equal x) keys s hid
            obtain ⟨hrequired, hmarked⟩ := h c (hold.symm.trans hc)
            exact ⟨hrequired, OrderedSet.mem_toList_insert.2 (Or.inl hmarked)⟩
  · exact h

theorem Intact.installSystem
    (h : Intact l id)
    (hne : ∀ c ∈ cs, c.id ≠ id) :
    Intact (l.installSystem cs).2.2 id := by
  induction cs generalizing l with
  | nil =>
      exact h
  | cons c cs ih =>
      have hfirst := h.install (hne c List.mem_cons_self)
      have hrest : ∀ d ∈ cs, d.id ≠ id := fun d hd => hne d (List.mem_cons_of_mem c hd)
      rcases hinstall : l.install c with ⟨cause | _, m⟩
      · rw [hinstall] at hfirst
        rw [installSystem_of_error hinstall]
        exact ih hfirst hrest
      · rw [hinstall] at hfirst
        rw [installSystem_of_ok hinstall]
        exact ih (hfirst.markSystem c.id) hrest

theorem Intact.changeIntrinsic
    (h : Intact l id)
    (hold : id.number < supply.next)
    (e : Entity) (axis : Axis) (change : IntrinsicChange K) :
    Intact (l.changeIntrinsic supply e axis change).2.1 id := by
  cases hr : l.entities.get? e with
  | none => rwa [changeIntrinsic_of_get?_eq_none hr]
  | some r =>
      rw [changeIntrinsic_of_get? hr]
      generalize (r.intrinsic.get axis).change change = after
      split
      · exact h.congr rfl rfl
      · have hcleared : Intact (l.cleared e axis r after) id := by
          have hstored : Intact ((l.storeIntrinsic e axis after).storeSizeConstraints e axis [])
              id := h.congr rfl rfl
          exact (hstored.removeAll (r.sizeConstraints.get axis)).congr rfl rfl
        refine (hcleared.installSystem fun c hc hid => ?_).congr rfl rfl
        have hnew := (IdSupply.number_of_mem_assign
          (fun f hf => AxisIntrinsic.id_of_mem_demands hf) hc).1
        rw [hid] at hnew
        exact absurd hold (Nat.not_lt.2 hnew)

theorem Intact.release
    (h : Intact l id)
    (e : Entity) :
    Intact (l.release e) id := by
  cases hr : l.entities.get? e with
  | none => rwa [release_of_get?_eq_none hr]
  | some r =>
      rw [release_of_get? hr]
      have hstruck : Intact (l.struck e r) id := h.congr rfl rfl
      have hstripped : Intact (l.stripped e r) id :=
        (hstruck.removeAll (l.ownedBy e)).congr rfl rfl
      exact hstripped.removeAll _

/-- Of all requests only an edit can weaken a constraint that has its name already. -/
theorem Intact.serve
    (h : Intact l id)
    (hnamed : Named names l)
    (hold : id.number < supply.next)
    {request : Request K}
    (hedit : ∀ edit, request = .update id edit → edit.priority = none) :
    Intact (l.serve supply request).1 id := by
  cases request with
  | manage e =>
      show Intact (l.manage e) id
      unfold manage
      split
      · exact h
      · exact h.congr rfl rfl
  | release e => exact h.release e
  | remove i => exact h.remove i
  | update i edit =>
      refine h.revalue hnamed (Constraint.revalues_edit edit) fun hi c => ?_
      rw [Constraint.edit, hedit edit (by rw [hi])]
      rfl
  | pin v x => exact h.pin hnamed supply v x
  | unpin v =>
      show Intact (l.unpin v) id
      unfold unpin
      split
      · exact h
      · next i _ =>
        have herased : Intact { l with pins := l.pins.erase v } id := h.congr rfl rfl
        exact herased.remove i
  | changeIntrinsic e axis change => exact h.changeIntrinsic hold e axis change
  | removeExternal e =>
      show Intact (l.removeExternal e).2 id
      rw [removeExternal_snd]
      exact h.removeAll _
  | needsSize e axis =>
      show Intact (l.needsSize e axis).2 id
      unfold needsSize
      split
      · exact h.congr rfl rfl
      · exact h

theorem Partition.intact
    {rest part : Layout K} {inside : Entity → Prop} {refused : List ConstraintId}
    (hparts : Partition l inside refused rest part)
    (h : Intact l id) :
    Intact rest id ∧ Intact part id := by
  refine ⟨h.of_le fun c hc => ?_, h.of_le fun c hc => ?_⟩
  · exact ⟨((hparts.constraints_rest id c).1 hc).1,
      fun hid => (hparts.marks_rest id).2 ⟨hid, fun _ => isActive_of_constraint? hc⟩⟩
  · exact ⟨((hparts.constraints_part id c).1 hc).1,
      fun hid => (hparts.marks_part id).2 ⟨hid, isActive_of_constraint? hc⟩⟩

/-- Whichever side the constraint comes from, it is as intact as it was there. -/
theorem Intact.join
    (h : Intact l id)
    (hother : Intact other id)
    (hnamed : Named names other) :
    Intact (l.join other).2 id := by
  have hmerged := hnamed.merged_join (l := l)
  have hkept : (l.join other).2.constraints.get? id = l.constraints.get? id →
      (id ∈ (l.join other).2.system.toList ↔ id ∈ l.system.toList) →
      Intact (l.join other).2 id := fun hsame hmark =>
    h.of_le fun c hc => ⟨(constraint?_congr hsame).symm.trans hc, hmark.2⟩
  by_cases hmem : id ∈ other.constraints.entries.map Prod.fst
  · obtain ⟨entry, hentry, rfl⟩ := List.mem_map.1 hmem
    cases hmerged.fates entry hentry with
    | discarded mem unlisted same mark => exact hkept same mark
    | refused not_mem listed same mark => exact hkept same mark
    | enforced not_mem unlisted constraint mark =>
        have hbefore : other.constraint? entry.1 = some entry.2.constraint :=
          congrArg (Option.map _) (OrderedMap.get?_eq_some_iff.2 hentry)
        intro c hc
        obtain rfl : entry.2.constraint = c := Option.some.inj (constraint.symm.trans hc)
        exact ⟨(hother _ hbefore).1, mark.2 (Or.inl (hother _ hbefore).2)⟩
  · exact hkept (hmerged.untouched id hmem).constraints (hmerged.untouched id hmem).system

end Intact

end Layout

namespace Session

variable {K : Type} [Scalar K] {s : Session K} {names : Names} {id : ConstraintId} {v : Variable}

section Spared

/-- Some layout of a session has the name on record as a pin. -/
def isPin (s : Session K) (id : ConstraintId) : Bool :=
  s.pool.layouts.values.any fun l => l.pins.values.contains id

/-- An event neither puts a copy of a pin in force nor gives a pin another priority. -/
def sparesPins (s : Session K) : Event K → Bool
  | .ask _ (.update id edit) => edit.priority.isNone || !s.isPin id
  | .add _ index _ | .replace _ _ index _ => s.held[index]?.all fun c => !s.isPin c.id
  | _ => true

/-- No event of a list puts a copy of a pin in force or gives a pin another priority. -/
def leavesPins (s : Session K) : List (Event K) → Bool
  | [] => true
  | event :: events => s.sparesPins event && (s.step event).leavesPins events

theorem isPin_of_uses
    (h : s.Uses id (.value v)) :
    s.isPin id = true := by
  obtain ⟨handle, l, hl, hv⟩ := h
  refine List.any_eq_true.2 ⟨l, List.mem_map.2 ⟨(handle, l), ?_, rfl⟩, ?_⟩
  · exact OrderedMap.get?_eq_some_iff.1 hl
  · exact List.contains_iff_mem.2
      (List.mem_map.2 ⟨(v, id), OrderedMap.get?_eq_some_iff.1 hv, rfl⟩)

end Spared

section Intact

/-- One event leaves a pin intact that is on record already, in all layouts. -/
theorem intact_step
    (hs : Registered names s)
    (hintact : s.All (Layout.Intact · id))
    (hpin : s.isPin id = true)
    (hold : id.number < s.ids.next)
    {event : Event K}
    (hspares : s.sparesPins event = true) :
    (s.step event).All (Layout.Intact · id) := by
  cases event with
  | make owner items edit => exact hintact
  | copy h i => exact hintact
  | start settings => exact hintact.share (Layout.intact_of_not_active rfl)
  | ask h request =>
      refine hintact.ask fun l hl => ?_
      refine (hintact h l hl).serve (hs.layouts h l hl).named hold fun edit hrequest => ?_
      subst hrequest
      rw [sparesPins, hpin] at hspares
      simpa using hspares
  | add h index edit =>
      show (s.add h index edit).All (Layout.Intact · id)
      unfold Session.add
      split
      · next l c hl hc =>
        refine hintact.setLayout ?_
        rw [sparesPins, hc] at hspares
        have hne : c.id ≠ id := fun hid => by
          rw [Option.all_some, hid, hpin] at hspares
          cases hspares
        unfold Layout.add
        split
        · exact hintact h l hl
        · exact (hintact h l hl).install hne
      · exact hintact
  | replace h i index edit =>
      refine hintact.replace fun l c hl hc => (hintact h l hl).update fun _ _ hid => ?_
      have hid : c.id = id := hid
      rw [sparesPins, hc, Option.all_some, hid, hpin] at hspares
      cases hspares
  | split h root tree =>
      refine hintact.split fun l hl => ?_
      have hregistered : Layout.Registered names l := hs.layouts h l hl
      exact (hregistered.split_partition root tree).intact (hintact h l hl)
  | join target source =>
      refine hintact.join (fun settings => Layout.intact_of_not_active rfl)
        fun l other _ hl hother => ?_
      exact (hintact target l hl).join (hintact source other hother)
        (hs.layouts source other hother).named

/-- A name that has not been given out is active nowhere. -/
theorem Registered.intact_new
    (hs : Registered names s)
    (hnew : s.ids.next ≤ id.number) :
    s.All (Layout.Intact · id) := by
  intro h l hl
  refine Layout.intact_of_not_active (Bool.eq_false_iff.2 fun hactive => ?_)
  obtain ⟨a, ha⟩ := Layout.isActive_iff.1 hactive
  have hname := ((hs.layouts h l hl).named id a ha).2
  rw [hs.below.eq_none hnew] at hname
  cases hname

/-- Every pin on record is intact wherever its constraint is in force. -/
def PinsIntact (s : Session K) : Prop :=
  ∀ id v, s.Uses id (.value v) → s.All (Layout.Intact · id)

theorem PinsIntact.step
    (hintact : PinsIntact s)
    (hs : Registered names s)
    (hsole : Sole s)
    {event : Event K}
    (hspares : s.sparesPins event = true) :
    PinsIntact (s.step event) := by
  intro id v huses
  rcases uses_step hs huses with hold | ⟨hpurpose, hnew, _⟩
  · exact intact_step hs (hintact id v hold) (isPin_of_uses hold) (hsole.below hold) hspares
  · -- a name is new, so some variable was pinned, and no other layout has heard of the name
    have hbefore := hs.intact_new hnew
    cases event with
    | ask h request =>
        cases request with
        | pin w x =>
            exact hbefore.ask fun l hl =>
              (hbefore h l hl).pin (hs.layouts h l hl).named s.ids w x
        | changeIntrinsic e axis change => cases hpurpose
        | _ => cases hpurpose
    | _ => cases hpurpose

theorem leavesPins_eq_heeds
    (s : Session K) (events : List (Event K)) :
    s.leavesPins events = s.heeds sparesPins events := by
  induction events generalizing s with
  | nil =>
      rfl
  | cons event events ih =>
      exact congrArg (s.sparesPins event && ·) (ih (s.step event))

theorem pinsIntact_run
    {events : List (Event K)}
    (hleaves : (empty : Session K).leavesPins events = true) :
    PinsIntact ((empty : Session K).run events) := by
  rw [leavesPins_eq_heeds] at hleaves
  have hempty : PinsIntact (empty : Session K) := fun _ _ ⟨_, _, hl, _⟩ => nomatch hl
  have hrun := run_induction (P := fun _ s => PinsIntact s) hempty
    (fun hs hsole hintact hspares => by
      obtain ⟨later, _, hnext⟩ := hs.step _
      exact ⟨later, hnext, hintact.step hs hsole hspares⟩) hleaves
  exact hrun.elim fun _ hintact => hintact

end Intact

end Session
end LinearLayout
