import LinearLayout.Proofs.Layout.Marks
import LinearLayout.Proofs.Layout.Purposes
import LinearLayout.Proofs.Layout.Questions
import LinearLayout.Proofs.Layout.Tracking

/-!
# Which sizes have to be measured

The analysis of a layout hears of constraints and marks one by one and applies what it hears when
it is asked.  Its answers are nevertheless those of the layout as it stands: a size has to be
measured if a priority makes it binding, or if the fixing constraints in force do not determine it.
-/

namespace LinearLayout
namespace Layout

variable {K : Type} [Scalar K] {l : Layout K} {names : Names} {e : Entity} {axis : Axis}

/-- An item of a required constraint in force that says that both sides are equal. -/
def FixingItem (l : Layout K) (item : Item) : Prop :=
  ∃ c ∈ l.active, c.isFixing = true ∧ item ∈ c.items

/-- A priority of a managed entity keeps its extent to the measured one at any cost. -/
def Binding (l : Layout K) (e : Entity) (axis : Axis) : Prop :=
  ∃ size, l.intrinsic? e = some size ∧
    ((size.get axis).hugging.isRequired = true ∨ (size.get axis).resistance.isRequired = true)

theorem requiresMeasurement_iff :
    l.requiresMeasurement e axis = true ↔ l.Binding e axis := by
  simp only [requiresMeasurement, Option.any_eq_true, AxisIntrinsic.requiresMeasurement,
    Bool.or_eq_true, Binding]

/-- What the analysis tracks are the items of the fixing constraints in force. -/
theorem Tracked.tracks_iff
    (h : Tracked names l)
    (item : Item) :
    l.necessity.overlay.Tracks item ↔ l.FixingItem item := by
  simp only [Tracking.Tracks, h.overlay, fixingItems, constraint?]
  constructor
  · rintro ⟨id, items, hid, hitem⟩
    obtain ⟨c, hc, rfl⟩ := Option.map_eq_some_iff.1 hid
    obtain ⟨hc, hfixing⟩ := Option.filter_eq_some_iff.1 hc
    obtain ⟨a, ha, rfl⟩ := Option.map_eq_some_iff.1 hc
    exact ⟨a.constraint, mem_active_iff.2 ⟨id, a, ha, rfl⟩, hfixing, hitem⟩
  · rintro ⟨c, hc, hfixing, hitem⟩
    obtain ⟨id, a, ha, rfl⟩ := mem_active_iff.1 hc
    refine ⟨id, a.constraint.items, ?_, hitem⟩
    rw [ha, Option.map_some, Option.filter_some, if_pos hfixing, Option.map_some]

/-- The answers are those of the layout as it stands. -/
theorem Tracked.needsSize_iff
    (h : Tracked names l)
    (hmarked : Marked l)
    (e : Entity) (axis : Axis) :
    (l.needsSize e axis).1 = true ↔ l.isManaged e = true ∧
      (l.Binding e axis ∨ ¬Determined l.FixingItem ⟨e, axis.extent⟩) := by
  have hanswer := h.kept.needsSize_iff e axis
  rw [hmarked, requiresMeasurement_iff, Determined.congr h.tracks_iff] at hanswer
  unfold Layout.needsSize
  split
  · next hmanaged => simp only [hmanaged, true_and, hanswer]
  · next hmanaged => simp only [hmanaged, Bool.false_eq_true, false_and]

end Layout

namespace Session

variable {K : Type} [Scalar K] {s : Session K} {h : Handle} {l : Layout K} {names : Names}

theorem marked_run
    (events : List (Event K)) :
    ((empty : Session K).run events).All Layout.Marked := by
  have hstep : ∀ (s : Session K) (event : Event K), s.All Layout.Marked →
      (s.step event).All Layout.Marked := by
    intro s event hs
    cases event with
    | make owner items edit => exact hs
    | copy h id => exact hs
    | start settings => exact hs.share (Layout.marked_new settings)
    | ask h request => exact hs.ask fun l hl => (hs h l hl).serve s.ids request
    | add h index edit => exact hs.add fun l hl c _ => (hs h l hl).add _
    | replace h id index edit => exact hs.replace fun l c hl _ => (hs h l hl).update id _
    | split h root tree => exact hs.split fun l hl => (hs h l hl).split root tree
    | join target source =>
        exact hs.join Layout.marked_new fun l other _ hl _ => (hs target l hl).join other
  exact List.foldlRecOn events step (motive := All Layout.Marked) nofun
    fun s hs event _ => hstep s event hs

/-- The analyses keep step with an event that keeps apart what is active. -/
theorem Registered.tracked_step
    (hregistered : Registered names s)
    (hs : s.All (Layout.Tracked names))
    {event : Event K} (hkeeps : s.keepsApart event = true) :
    ∃ later, Registered later (s.step event) ∧ (s.step event).All (Layout.Tracked later) := by
  obtain ⟨later, hgrows, hafter⟩ := hregistered.step event
  refine ⟨later, hafter, ?_⟩
  have hgrown : s.All (Layout.Tracked later) := hs.imp fun _ hl => hl.mono hgrows
  cases event with
  | make owner items edit => exact hgrown
  | copy h id => exact hgrown
  | start settings => exact hgrown.share (Layout.tracked_new later settings)
  | ask h request =>
      refine hgrown.ask fun l hl => ?_
      have hserved : (s.step (.ask h request)).layout? h = some (l.serve s.ids request).1 := by
        simp only [Session.step, Session.ask, hl]
        exact (layout?_setLayout _ _ _ _).trans (if_pos rfl)
      exact (hs h l hl).serve (hregistered.layouts h l hl) hregistered.below hgrows request
        (hafter.layouts h _ hserved).named
  | add h index edit =>
      exact hgrown.add fun l hl c hc => (hgrown h l hl).add (hgrows _ _ (hregistered.held c hc))
  | replace h id index edit =>
      refine hgrown.replace fun l c hl hc => (hgrown h l hl).update
        (fun _ _ => eq_or_not_active_of_keepsApart hkeeps hl hc) fun _ _ => ?_
      exact hgrows _ _ (hregistered.held c (List.mem_of_getElem? hc))
  | split h root tree =>
      exact hgrown.split fun l hl =>
        (hgrown h l hl).split ((hregistered.layouts h l hl).mono hgrows) root tree
  | join target source =>
      refine hgrown.join (Layout.tracked_new later) fun l other hne hl hother => ?_
      have hapart : apart l other = true := by
        simpa only [keepsApart, hl, hother, hne, decide_false, Bool.false_or] using hkeeps
      exact (hgrown target l hl).join
        ((hregistered.layouts source other hother).mono hgrows).named hapart

theorem tracked_run
    {events : List (Event K)}
    (hapart : (empty : Session K).staysApart events = true) :
    ∃ names, ((empty : Session K).run events).All (Layout.Tracked names) := by
  rw [staysApart_eq_heeds] at hapart
  have hempty : (empty : Session K).All (Layout.Tracked fun _ => none) := nofun
  exact run_induction (P := fun names s => s.All (Layout.Tracked names)) hempty
    (fun hregistered _ hs hkeeps => hregistered.tracked_step hs hkeeps) hapart

theorem needsSize_run_iff
    {events : List (Event K)}
    (hapart : (empty : Session K).staysApart events = true)
    (hl : ((empty : Session K).run events).layout? h = some l)
    (e : Entity) (axis : Axis) :
    (l.needsSize e axis).1 = true ↔ l.isManaged e = true ∧
      (l.Binding e axis ∨ ¬Determined l.FixingItem ⟨e, axis.extent⟩) := by
  obtain ⟨names, htracked⟩ := tracked_run hapart
  exact (htracked h l hl).needsSize_iff (marked_run events h l hl) e axis

/-- Questions that were asked before make no difference to what callers are told. -/
theorem reply_run_filter
    {events : List (Event K)}
    (hapart : (empty : Session K).staysApart events = true)
    (event : Event K) :
    ((empty : Session K).run (events.filter fun event => !event.isQuestion)).reply event =
      ((empty : Session K).run events).reply event := by
  have halike := (Alike.refl (empty : Session K)).run events
  cases hquestion : event.isQuestion with
  | false => exact halike.reply hquestion
  | true =>
      cases event with
      | ask h request =>
          cases request with
          | needsSize e axis =>
              have hsilent := ((Alike.refl (empty : Session K)).staysApart events).trans hapart
              rcases halike.layout?_cases h with ⟨hl, hm⟩ | ⟨l, m, hl, hm, hsame⟩
              · simp only [Session.reply, hl, hm, Option.map_none]
              · have hanswer : (m.needsSize e axis).1 = (l.needsSize e axis).1 := by
                  rw [Bool.eq_iff_iff, needsSize_run_iff hsilent hm, needsSize_run_iff hapart hl]
                  obtain ⟨n, rfl⟩ := hsame
                  rfl
                simp only [Session.reply, hl, hm, Option.map_some, Layout.reply, hanswer]
          | _ => cases hquestion
      | _ => cases hquestion

/--
In every layout of a session in which no two layouts are joined that have an active constraint in
common, and no edit puts a constraint in the place of another while it is active itself, a size has
to be measured exactly if its entity is managed and a priority makes it binding, or the least set
that the fixing constraints in force determine lacks it.  Had no such question been asked, the
layouts would be the same up to their analyses, and callers would be told the same from then on.
-/
theorem needsSize_iff_not_determined
    (events : List (Event K))
    (hapart : (empty : Session K).staysApart events = true) :
    (∀ h l, ((empty : Session K).run events).layout? h = some l → ∀ e axis,
      (l.needsSize e axis).1 = true ↔ l.isManaged e = true ∧
        (l.Binding e axis ∨ ¬Determined l.FixingItem ⟨e, axis.extent⟩)) ∧
      Alike ((empty : Session K).run events)
        ((empty : Session K).run (events.filter fun event => !event.isQuestion)) ∧
      ∀ event,
        ((empty : Session K).run (events.filter fun event => !event.isQuestion)).reply event =
          ((empty : Session K).run events).reply event :=
  ⟨fun _ _ hl => needsSize_run_iff hapart hl, (Alike.refl empty).run events,
    reply_run_filter hapart⟩

/-- No entity is below another. -/
def flat : ChildRelation :=
  ⟨fun _ => [], [], fun _ h => absurd rfl h⟩

/--
A width is fixed and passed on.  After a question it is passed on by another constraint and not
required any more; after another question it is required, and the layout has been joined with one
of an entity that keeps its height.  Then the entity to which the width is passed on leaves.
-/
def editedEvents : List (Event Rat) :=
  [.start {}, .start {}, .ask ⟨0⟩ (.manage ⟨1⟩), .ask ⟨0⟩ (.manage ⟨2⟩), .ask ⟨1⟩ (.manage ⟨3⟩),
    .make ⟨1⟩ [⟨⟨⟨1⟩, .width⟩, .equal, some ⟨⟨2⟩, .width⟩⟩] {}, .add ⟨0⟩ 0 {},
    .make ⟨1⟩ [⟨⟨⟨1⟩, .width⟩, .equal, none⟩] { offset := some 10 }, .add ⟨0⟩ 1 {},
    .make ⟨2⟩ [⟨⟨⟨2⟩, .width⟩, .equal, some ⟨⟨1⟩, .width⟩⟩] {},
    .ask ⟨0⟩ (.needsSize ⟨2⟩ .horizontal), .replace ⟨0⟩ ⟨1⟩ 2 {},
    .ask ⟨0⟩ (.update ⟨2⟩ { priority := some .high }), .ask ⟨0⟩ (.needsSize ⟨2⟩ .horizontal),
    .ask ⟨1⟩ (.changeIntrinsic ⟨3⟩ .vertical (.hugging .required)),
    .ask ⟨1⟩ (.pin ⟨⟨3⟩, .height⟩ 5), .join ⟨0⟩ ⟨1⟩,
    .ask ⟨0⟩ (.update ⟨2⟩ { priority := some .required })] ++ [.split ⟨0⟩ ⟨2⟩ flat]

theorem needsSize_iff_not_determined_edited :
    (empty : Session Rat).staysApart editedEvents = true ∧
      ∃ l m, ((empty : Session Rat).run editedEvents).layout? ⟨0⟩ = some l ∧
        ((empty : Session Rat).run editedEvents).layout? ⟨2⟩ = some m ∧
        ¬(l.Binding ⟨1⟩ .horizontal ∨ ¬Determined l.FixingItem ⟨⟨1⟩, .width⟩) ∧
        (l.Binding ⟨3⟩ .vertical ∨ ¬Determined l.FixingItem ⟨⟨3⟩, .height⟩) ∧
        (m.Binding ⟨2⟩ .horizontal ∨ ¬Determined m.FixingItem ⟨⟨2⟩, .width⟩) ∧
        ((empty : Session Rat).run (editedEvents.filter fun event => !event.isQuestion)).reply
          (.ask ⟨2⟩ (.needsSize ⟨2⟩ .horizontal)) = some (.needed true) := by
  have hleaving : flat.subtree ⟨2⟩ = [⟨2⟩] := by
    simp [ChildRelation.subtree, ChildRelation.visit, flat]
  have hapart : (empty : Session Rat).staysApart editedEvents = true := by
    decide +kernel
  have hrest : (((empty : Session Rat).run editedEvents).layout? ⟨0⟩).map (fun l =>
      (l.isManaged ⟨1⟩, (l.needsSize ⟨1⟩ .horizontal).1, (l.needsSize ⟨3⟩ .vertical).1)) =
      some (true, false, true) := by
    rw [editedEvents, run_append]
    simp only [run, List.foldl_cons, List.foldl_nil, Session.step, Session.split, Pool.split,
      Layout.split, hleaving]
    decide +kernel
  have hpart : (((empty : Session Rat).run editedEvents).layout? ⟨2⟩).map (fun m =>
      (m.needsSize ⟨2⟩ .horizontal).1) = some true := by
    rw [editedEvents, run_append]
    simp only [run, List.foldl_cons, List.foldl_nil, Session.step, Session.split, Pool.split,
      Layout.split, hleaving]
    decide +kernel
  obtain ⟨hanswers, _, hreply⟩ := needsSize_iff_not_determined editedEvents hapart
  obtain ⟨l, hl, hanswer⟩ := Option.map_eq_some_iff.1 hrest
  obtain ⟨m, hm, htrue⟩ := Option.map_eq_some_iff.1 hpart
  simp only [Prod.mk.injEq] at hanswer
  obtain ⟨hmanaged, hfirst, hthird⟩ := hanswer
  refine ⟨hapart, l, m, hl, hm, fun hneeded => ?_, ((hanswers ⟨0⟩ l hl ⟨3⟩ .vertical).1 hthird).2,
    ((hanswers ⟨2⟩ m hm ⟨2⟩ .horizontal).1 htrue).2, ?_⟩
  · have htrue := (hanswers ⟨0⟩ l hl ⟨1⟩ .horizontal).2 ⟨hmanaged, hneeded⟩
    rw [hfirst] at htrue
    cases htrue
  · rw [hreply]
    simp only [Session.reply, hm, Option.map_some, Layout.reply, htrue]

/--
Of two active constraints the first fixes a width.  The second one gives way to a copy of the first
that is not required.
-/
def overwrittenEvents : List (Event Rat) :=
  [.start {}, .ask ⟨0⟩ (.manage ⟨1⟩),
    .make ⟨1⟩ [⟨⟨⟨1⟩, .width⟩, .equal, none⟩] { offset := some 10 },
    .make ⟨1⟩ [⟨⟨⟨1⟩, .left⟩, .atLeast, none⟩] {}, .add ⟨0⟩ 0 {}, .add ⟨0⟩ 1 {},
    .replace ⟨0⟩ ⟨2⟩ 0 { priority := some .high }]

/-- The analysis still goes by the constraint that was overwritten, while none in force is fixing. -/
theorem not_needed_overwrittenEvents :
    ∃ l, ((empty : Session Rat).run overwrittenEvents).layout? ⟨0⟩ = some l ∧
      l.constraints.keys = [⟨1⟩] ∧ l.isManaged ⟨1⟩ = true ∧
      (l.needsSize ⟨1⟩ .horizontal).1 = false ∧
      ¬Determined l.FixingItem ⟨⟨1⟩, .width⟩ := by
  have hstate : (((empty : Session Rat).run overwrittenEvents).layout? ⟨0⟩).map (fun l =>
      (l.constraints.keys, l.isManaged ⟨1⟩, (l.needsSize ⟨1⟩ .horizontal).1,
        l.active.any Constraint.isFixing)) = some ([⟨1⟩], true, false, false) := by
    decide +kernel
  obtain ⟨l, hl, hparts⟩ := Option.map_eq_some_iff.1 hstate
  simp only [Prod.mk.injEq] at hparts
  obtain ⟨hkeys, hmanaged, hanswer, hfixing⟩ := hparts
  refine ⟨l, hl, hkeys, hmanaged, hanswer, fun hdetermined => ?_⟩
  obtain ⟨item, c, hc, hcfixing, _⟩ := hdetermined.exists_item
  rw [List.any_eq_true.2 ⟨c, hc, hcfixing⟩] at hfixing
  cases hfixing

end Session
end LinearLayout
