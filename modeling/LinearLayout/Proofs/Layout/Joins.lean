import Mathlib.Data.List.Induction
import LinearLayout.Proofs.Layout.Requests
import LinearLayout.Proofs.Layout.Splits

/-!
# Joins keep the registry

A join adopts the entities of another layout, installs its constraints and takes over its pins.
The marks of the other layout come with the constraints, but their records come earlier, with an
entity, or later, with a pin.
-/

namespace LinearLayout
namespace Layout

variable {K : Type} [Scalar K] {l other : Layout K} {names : Names} {id : ConstraintId}
  {c : Constraint K} {e : Entity} {stale due due' : ConstraintId → Prop}

section Entities

/-- One entity of another layout is adopted, unless it is managed here already. -/
def joinEntity (acc : List ConstraintId × Layout K) (entry : Entity × ManagedEntity K) :
    List ConstraintId × Layout K :=
  if acc.2.isManaged entry.1 then (acc.1 ++ entry.2.sizeConstraints.toList.flatten, acc.2)
  else (acc.1, acc.2.adopt entry.1 entry.2.intrinsic entry.2.sizeConstraints)

theorem joinEntities_eq
    (l other : Layout K) :
    l.joinEntities other = other.entities.entries.foldl joinEntity ([], l) :=
  rfl

/-- Some entities have been adopted, and the names that stood for known entities are listed. -/
structure Adopted (l : Layout K) (entries : List (Entity × ManagedEntity K))
    (acc : List ConstraintId × Layout K) : Prop where
  constraints : acc.2.constraints = l.constraints
  system : acc.2.system = l.system
  pins : acc.2.pins = l.pins
  known : ∀ e, l.isManaged e = true → acc.2.entities.get? e = l.entities.get? e
  managed : ∀ e, acc.2.isManaged e = true ↔ l.isManaged e = true ∨ e ∈ entries.map Prod.fst
  adopted : ∀ entry ∈ entries, l.isManaged entry.1 = false →
    (acc.2.entities.get? entry.1).map ManagedEntity.kept = some entry.2.kept
  superseded : ∀ i, i ∈ acc.1 ↔ ∃ entry ∈ entries, l.isManaged entry.1 = true ∧
    i ∈ entry.2.sizeConstraints.toList.flatten

variable {entries : List (Entity × ManagedEntity K)} {acc : List ConstraintId × Layout K}
  {entry : Entity × ManagedEntity K}

theorem adopted_nil
    (l : Layout K) :
    Adopted l [] ([], l) where
  constraints := rfl
  system := rfl
  pins := rfl
  known := fun _ _ => rfl
  managed := fun _ => by simp
  adopted := nofun
  superseded := fun _ => by simp

theorem Adopted.joinEntity
    (h : Adopted l entries acc)
    (hnew : entry.1 ∉ entries.map Prod.fst) :
    Adopted l (entries ++ [entry]) (joinEntity acc entry) := by
  have hkeys : ∀ e, e ∈ (entries ++ [entry]).map Prod.fst ↔
      e ∈ entries.map Prod.fst ∨ e = entry.1 := fun e => by simp
  unfold Layout.joinEntity
  split
  · next hmanaged =>
    -- an entity that is known stays as it is, and the names of its sizes are listed
    have hknown : l.isManaged entry.1 = true := ((h.managed _).1 hmanaged).resolve_right hnew
    refine { h with
      managed := fun e => ?_, adopted := fun x hx hx' => ?_, superseded := fun i => ?_ }
    · rw [h.managed, hkeys, ← or_assoc]
      exact ⟨Or.inl, fun he => he.elim id fun he => Or.inl (he ▸ hknown)⟩
    · rcases List.mem_append.1 hx with hx | hx
      · exact h.adopted x hx hx'
      · rw [List.mem_singleton.1 hx, hknown] at hx'
        cases hx'
    · rw [List.mem_append, h.superseded]
      constructor
      · rintro (⟨x, hx, hi⟩ | hi)
        · exact ⟨x, List.mem_append_left _ hx, hi⟩
        · exact ⟨entry, List.mem_append_right _ List.mem_cons_self, hknown, hi⟩
      · rintro ⟨x, hx, hx', hi⟩
        rcases List.mem_append.1 hx with hx | hx
        · exact Or.inl ⟨x, hx, hx', hi⟩
        · exact Or.inr (List.mem_singleton.1 hx ▸ hi)
  · next hmanaged =>
    have hforeign : l.isManaged entry.1 = false :=
      Bool.eq_false_iff.2 fun hknown => hmanaged ((h.managed _).2 (Or.inl hknown))
    refine ⟨h.constraints, h.system, h.pins, fun e he => ?_, fun e => ?_, fun x hx hx' => ?_,
      fun i => ?_⟩
    · have hne : e ≠ entry.1 := fun heq => by
        rw [heq, hforeign] at he
        cases he
      rw [entities_adopt, OrderedMap.get?_insert, if_neg hne, h.known e he]
    · rw [isManaged_adopt, h.managed, hkeys, or_comm, or_assoc]
    · rw [entities_adopt, OrderedMap.get?_insert]
      rcases List.mem_append.1 hx with hx | hx
      · have hne : x.1 ≠ entry.1 := fun heq => hnew (heq ▸ List.mem_map_of_mem hx)
        rw [if_neg hne]
        exact h.adopted x hx hx'
      · rw [List.mem_singleton.1 hx, if_pos rfl]
        rfl
    · rw [h.superseded]
      constructor
      · rintro ⟨x, hx, hi⟩
        exact ⟨x, List.mem_append_left _ hx, hi⟩
      · rintro ⟨x, hx, hx', hi⟩
        rcases List.mem_append.1 hx with hx | hx
        · exact ⟨x, hx, hx', hi⟩
        · rw [List.mem_singleton.1 hx, hforeign] at hx'
          cases hx'

theorem adopted_foldl
    (l : Layout K)
    (hnodup : (entries.map Prod.fst).Nodup) :
    Adopted l entries (entries.foldl joinEntity ([], l)) := by
  induction entries using List.reverseRecOn with
  | nil =>
      exact adopted_nil l
  | append_singleton entries entry ih =>
      rw [List.map_append, List.nodup_append] at hnodup
      rw [List.foldl_append]
      exact (ih hnodup.1).joinEntity fun hmem =>
        hnodup.2.2 _ hmem _ (List.mem_map_of_mem List.mem_cons_self) rfl

/-- What every adoption keeps, taking over the entities of another layout keeps. -/
theorem joinEntities_induction
    {P : Layout K → Prop}
    (hadopt : ∀ m e size sizes, m.isManaged e = false → P m → P (m.adopt e size sizes))
    (h : P l)
    (other : Layout K) :
    P (l.joinEntities other).2 := by
  rw [joinEntities_eq]
  refine List.foldlRecOn other.entities.entries joinEntity (b := ([], l))
    (motive := fun acc => P acc.2) h fun acc hacc entry _ => ?_
  unfold joinEntity
  split
  · exact hacc
  · next hnew => exact hadopt _ _ _ _ (Bool.eq_false_iff.2 hnew) hacc

theorem Filed.joinEntities
    (h : Filed names stale due l)
    (other : Layout K) :
    Filed names stale due (l.joinEntities other).2 :=
  joinEntities_induction (fun _ _ _ _ hnew hm => hm.adopt hnew _ _) h other

end Entities

section Constraints

variable {superseded : List ConstraintId} {acc : List ConstraintId × Layout K}
  {entry : ConstraintId × ActiveConstraint K} {entries : List (ConstraintId × ActiveConstraint K)}

/-- One constraint of another layout is installed with its mark, unless it is superseded. -/
def joinConstraint (other : Layout K) (superseded : List ConstraintId)
    (acc : List ConstraintId × Layout K) (entry : ConstraintId × ActiveConstraint K) :
    List ConstraintId × Layout K :=
  if superseded.contains entry.1 then acc
  else
    match acc.2.install entry.2.constraint with
    | (.ok (), l) => (acc.1, if other.system.contains entry.1 then l.markSystem entry.1 else l)
    | (.error _, l) => (acc.1 ++ [entry.1], l)

theorem joinConstraints_eq
    (l other : Layout K) (superseded : List ConstraintId) :
    l.joinConstraints other superseded =
      other.constraints.entries.foldl (joinConstraint other superseded) ([], l) :=
  rfl

/-- A constraint that comes is superseded, refused, or in force with the mark that it had. -/
theorem joinConstraint_cases
    (other : Layout K) (superseded : List ConstraintId) (acc : List ConstraintId × Layout K)
    (entry : ConstraintId × ActiveConstraint K) :
    (entry.1 ∈ superseded ∧ joinConstraint other superseded acc entry = acc) ∨
      (entry.1 ∉ superseded ∧ ∃ s,
        joinConstraint other superseded acc entry =
          (acc.1 ++ [entry.1], { acc.2 with solver := s }) ∧
        (s = acc.2.solver ∨
          ∃ reason, acc.2.solver.addAll [] entry.2.constraint.equations = (.error reason, s))) ∨
      (entry.1 ∉ superseded ∧ ∃ keys s, acc.2.unmanaged? entry.2.constraint = none ∧
        acc.2.solver.addAll [] entry.2.constraint.equations = (.ok keys, s) ∧
        joinConstraint other superseded acc entry =
          (acc.1,
            if other.system.contains entry.1 then
              (acc.2.enforced entry.2.constraint keys s).markSystem entry.1
            else acc.2.enforced entry.2.constraint keys s)) := by
  by_cases hmem : entry.1 ∈ superseded
  · exact Or.inl ⟨hmem, if_pos (List.contains_iff_mem.2 hmem)⟩
  · have hnot : superseded.contains entry.1 = false :=
      Bool.eq_false_iff.2 fun h => hmem (List.contains_iff_mem.1 h)
    rcases install_cases acc.2 entry.2.constraint with
      ⟨cause, s, heq, hs⟩ | ⟨keys, s, heq, hmanaged, hadd⟩
    · refine Or.inr (Or.inl ⟨hmem, s, ?_, hs⟩)
      rw [joinConstraint, hnot, heq]
      rfl
    · refine Or.inr (Or.inr ⟨hmem, keys, s, hmanaged, hadd, ?_⟩)
      rw [joinConstraint, hnot, heq]
      rfl

@[simp] theorem entities_joinConstraint :
    (joinConstraint other superseded acc entry).2.entities = acc.2.entities := by
  rcases joinConstraint_cases other superseded acc entry with
    ⟨_, heq⟩ | ⟨_, s, heq, _⟩ | ⟨_, keys, s, _, _, heq⟩
  · rw [heq]
  · rw [heq]
  · rw [heq]
    split <;> rfl

@[simp] theorem pins_joinConstraint :
    (joinConstraint other superseded acc entry).2.pins = acc.2.pins := by
  rcases joinConstraint_cases other superseded acc entry with
    ⟨_, heq⟩ | ⟨_, s, heq, _⟩ | ⟨_, keys, s, _, _, heq⟩
  · rw [heq]
  · rw [heq]
  · rw [heq]
    split <;> rfl

theorem entities_foldl_joinConstraint :
    (entries.foldl (joinConstraint other superseded) acc).2.entities = acc.2.entities := by
  induction entries generalizing acc with
  | nil =>
      rfl
  | cons entry entries ih =>
      exact ih.trans entities_joinConstraint

theorem pins_foldl_joinConstraint :
    (entries.foldl (joinConstraint other superseded) acc).2.pins = acc.2.pins := by
  induction entries generalizing acc with
  | nil =>
      rfl
  | cons entry entries ih =>
      exact ih.trans pins_joinConstraint

/-- A mark comes along if its record is here already or is due. -/
theorem Filed.joinConstraint
    (h : Filed names stale due acc.2)
    (hid : entry.2.constraint.id = entry.1)
    (hname : names entry.1 = some entry.2.constraint.blueprint)
    (hsystem : entry.1 ∈ other.system.toList → ¬ stale entry.1 → entry.1 ∉ superseded →
      Records names acc.2 entry.1 ∨ due entry.1) :
    Filed names stale due (joinConstraint other superseded acc entry).2 := by
  rcases joinConstraint_cases other superseded acc entry with
    ⟨_, heq⟩ | ⟨_, s, heq, _⟩ | ⟨hnot, keys, s, hmanaged, _, heq⟩
  · rw [heq]
    exact h
  · rw [heq]
    exact h.withSolver s
  · rw [heq]
    have henforced : Filed names stale due (acc.2.enforced entry.2.constraint keys s) :=
      h.enforced (hid ▸ hname) hmanaged
    dsimp only
    split
    · next hmark =>
      have hactive : (acc.2.enforced entry.2.constraint keys s).isActive entry.1 = true :=
        hid ▸ isActive_enforced_self
      refine (henforced.markSystem hactive).settle ?_
      rintro i hfresh (hi | rfl)
      · exact Or.inr hi
      · exact hsystem (OrderedSet.contains_eq_true.1 hmark) hfresh hnot
    · exact henforced

theorem Filed.joinConstraints
    (h : Filed names stale due l)
    (hother : Named names other)
    (hsystem : ∀ i ∈ other.system.toList, ¬ stale i → i ∉ superseded →
      Records names l i ∨ due i) :
    Filed names stale due (l.joinConstraints other superseded).2 := by
  have hfold : ∀ entries : List (ConstraintId × ActiveConstraint K),
      (∀ entry ∈ entries, other.constraints.get? entry.1 = some entry.2) →
      Filed names stale due
        (entries.foldl (Layout.joinConstraint other superseded) ([], l)).2 := by
    intro entries hentries
    induction entries using List.reverseRecOn with
    | nil =>
        exact h
    | append_singleton entries entry ih =>
        rw [List.foldl_append]
        obtain ⟨hid, hname⟩ := hother entry.1 entry.2
          (hentries entry (List.mem_append_right _ List.mem_cons_self))
        refine (ih fun x hx => hentries x (List.mem_append_left _ hx)).joinConstraint hid hname ?_
        intro hi hfresh hnot
        rw [records_congr pins_foldl_joinConstraint entities_foldl_joinConstraint]
        exact hsystem entry.1 hi hfresh hnot
  rw [joinConstraints_eq]
  exact hfold _ fun entry hentry => OrderedMap.get?_eq_some_iff.2 hentry

end Constraints

section Pins

/-- One pin of another layout is taken over if its constraint is in force. -/
def joinPin (l : Layout K) (pin : Variable × ConstraintId) : Layout K :=
  if l.isActive pin.2 then { l with pins := l.pins.insert pin.1 pin.2 } else l

theorem joinPin_eq
    (l : Layout K) (pin : Variable × ConstraintId) :
    ∃ pins, joinPin l pin = { l with pins := pins } ∧
      ∀ v, pins.get? v =
        if v = pin.1 ∧ l.isActive pin.2 = true then some pin.2 else l.pins.get? v := by
  unfold joinPin
  by_cases hactive : l.isActive pin.2 = true
  · rw [if_pos hactive]
    refine ⟨_, rfl, fun v => ?_⟩
    rw [OrderedMap.get?_insert]
    simp [hactive]
  · rw [if_neg hactive]
    exact ⟨l.pins, rfl, fun v => by simp [hactive]⟩

/-- The pins that are taken over are for different variables, so none overwrites another. -/
theorem joinPins_eq
    {pins : List (Variable × ConstraintId)}
    (hnodup : (pins.map Prod.fst).Nodup)
    (l : Layout K) :
    ∃ all, l.joinPins pins = { l with pins := all } ∧
      ∀ v, all.get? v = ((OrderedMap.find v pins).filter l.isActive <|> l.pins.get? v) := by
  induction pins generalizing l with
  | nil =>
      exact ⟨l.pins, rfl, fun _ => rfl⟩
  | cons pin pins ih =>
      rw [List.map_cons, List.nodup_cons] at hnodup
      obtain ⟨first, hfirst, hget⟩ := joinPin_eq l pin
      obtain ⟨all, hall, hrest⟩ := ih hnodup.2 (joinPin l pin)
      have hactive : (joinPin l pin).isActive = l.isActive := by rw [hfirst]; rfl
      refine ⟨all, ?_, fun v => ?_⟩
      · show (joinPin l pin).joinPins pins = { l with pins := all }
        rw [hall, hfirst]
      · rw [hrest, hactive]
        have hpins : (joinPin l pin).pins = first := by rw [hfirst]
        rw [hpins, hget, OrderedMap.find]
        by_cases hv : v = pin.1
        · subst hv
          have hnone : OrderedMap.find pin.1 pins = none := OrderedMap.find_eq_none_iff.2 hnodup.1
          rw [hnone, if_pos rfl]
          by_cases hpin : l.isActive pin.2 = true <;> simp [hpin, Option.filter]
        · rw [if_neg fun h => hv h.1, if_neg (Ne.symm hv)]

end Pins

section Join

/-- The names that stand for what the receiver has already: sizes of known entities and pins. -/
def superseded (l other : Layout K) : List ConstraintId :=
  (l.joinEntities other).1 ++
    (other.pins.entries.filter fun pin => l.pins.contains pin.1).map Prod.snd

/-- The pins of another layout for variables that are not pinned here. -/
def newPins (l other : Layout K) : OrderedMap Variable ConstraintId :=
  other.pins.filter fun v _ => !l.pins.contains v

theorem join_eq
    (l other : Layout K) :
    l.join other =
      (((l.joinEntities other).2.joinConstraints other (l.superseded other)).1,
        ((l.joinEntities other).2.joinConstraints other (l.superseded other)).2.joinPins
          (l.newPins other).entries) :=
  rfl

theorem adopted_joinEntities
    (l other : Layout K) :
    Adopted l other.entities.entries (l.joinEntities other) :=
  adopted_foldl l other.entities.nodup_keys

theorem get?_newPins
    (v : Variable) :
    (l.newPins other).get? v = some id ↔ other.pins.get? v = some id ∧ l.pins.get? v = none := by
  rw [newPins, OrderedMap.get?_filter, Option.filter_eq_some_iff]
  simp [OrderedMap.contains]

theorem mem_superseded_of_pin
    {v : Variable}
    (hv : other.pins.get? v = some id)
    (hpinned : l.pins.get? v ≠ none) :
    id ∈ l.superseded other := by
  refine List.mem_append_right _ (List.mem_map.2 ⟨(v, id), List.mem_filter.2 ⟨?_, ?_⟩, rfl⟩)
  · exact OrderedMap.get?_eq_some_iff.1 hv
  · exact Option.isSome_iff_ne_none.2 hpinned

/-- A record of the other layout is superseded, made with an adopted entity, or due as a pin. -/
theorem records_of_other
    (hrecord : Records names other id)
    (hnot : id ∉ l.superseded other) :
    Records names (l.joinEntities other).2 id ∨
      ∃ v, names id = some (.pin v) ∧ (l.newPins other).get? v = some id := by
  have hadopted := adopted_joinEntities l other
  obtain ⟨b, hb, ⟨v, rfl, hv⟩ | hsize⟩ := hrecord
  · refine Or.inr ⟨v, hb, (get?_newPins v).2 ⟨hv, ?_⟩⟩
    exact Classical.byContradiction fun hpinned => hnot (mem_superseded_of_pin hv hpinned)
  · refine Or.inl ⟨b, hb, Or.inr ?_⟩
    obtain ⟨r, hr, hid⟩ := exists_of_mem_sizeConstraintsOf hsize
    have hentry : (b.owner, r) ∈ other.entities.entries := OrderedMap.get?_eq_some_iff.1 hr
    cases hknown : l.isManaged b.owner with
    | true =>
        refine absurd (List.mem_append_left _ ?_) hnot
        exact (hadopted.superseded id).2 ⟨_, hentry, hknown, hid⟩
    | false =>
        have hkept := hadopted.adopted _ hentry hknown
        rw [sizeConstraintsOf_of_kept (l := other) (hkept.trans (by rw [hr]; rfl))]
        exact hsize

/-- Afterwards a variable has the pin that it had here, or the pin of the other that is in force. -/
theorem exists_joinPins
    {joined : Layout K}
    (hpins : joined.pins = l.pins)
    (other : Layout K) :
    ∃ pins, joined.joinPins (l.newPins other).entries = { joined with pins := pins } ∧
      ∀ v i, pins.get? v = some i ↔
        ((l.newPins other).get? v = some i ∧ joined.isActive i = true) ∨
          l.pins.get? v = some i := by
  obtain ⟨pins, heq, hget⟩ := joinPins_eq (l.newPins other).nodup_keys joined
  refine ⟨pins, heq, fun v i => ?_⟩
  have hfind : OrderedMap.find v (l.newPins other).entries = (l.newPins other).get? v := rfl
  rw [hget, hpins, hfind]
  cases hnew : (l.newPins other).get? v with
  | none => simp
  | some j =>
      have hfree : l.pins.get? v = none := ((get?_newPins v).1 hnew).2
      have hright : ∀ o : Option ConstraintId, (o <|> none) = o := fun o => by cases o <;> rfl
      rw [hfree, hright, Option.filter_eq_some_iff]
      simp

theorem Settled.join
    (h : Settled names stale l)
    (hother : Settled names stale other) :
    Settled names stale (l.join other).2 := by
  rw [join_eq]
  have hadopted := adopted_joinEntities l other
  -- the pins come last, so until then the marks of pin constraints are not on record yet
  have hdue : Filed names stale (fun i => ∃ v, names i = some (.pin v) ∧
      (l.newPins other).get? v = some i) (l.joinEntities other).2 :=
    (Filed.joinEntities h other).imp fun _ => False.elim
  have hjoined := hdue.joinConstraints hother.named fun i hi hfresh hnot =>
    records_of_other ((hother.vouched i hi hfresh).2.resolve_right not_false) hnot
  generalize hall : (l.joinEntities other).2.joinConstraints other (l.superseded other) = joined
    at hjoined
  have hentities : joined.2.entities = (l.joinEntities other).2.entities := by
    rw [← hall]
    exact entities_foldl_joinConstraint
  have hpins : joined.2.pins = l.pins := by
    rw [← hall]
    exact pins_foldl_joinConstraint.trans hadopted.pins
  obtain ⟨pins, heq, hget⟩ := exists_joinPins hpins other
  show Settled names stale (joined.2.joinPins (l.newPins other).entries)
  rw [heq]
  refine ⟨hjoined.named, hjoined.closed, hjoined.lists, fun v i hv => ?_,
    fun i hi hfresh => ?_⟩
  · have hmanaged : ∀ e, joined.2.isManaged e = true ↔
        l.isManaged e = true ∨ e ∈ other.entities.keys := fun e => by
      rw [isManaged, hentities]
      exact hadopted.managed e
    rcases (hget v i).1 hv with ⟨hv, _⟩ | hv
    · obtain ⟨hv, hname⟩ := hother.pinned v i ((get?_newPins v).1 hv).1
      refine ⟨(hmanaged v.entity).2 (Or.inr ?_), hname⟩
      exact OrderedMap.mem_keys_iff.2 (isManaged_iff.1 hv)
    · obtain ⟨hv, hname⟩ := h.pinned v i hv
      exact ⟨(hmanaged v.entity).2 (Or.inl hv), hname⟩
  · obtain ⟨hactive, hrecord⟩ := hjoined.vouched i hi hfresh
    refine ⟨hactive, Or.inl ?_⟩
    rcases hrecord with ⟨b, hb, ⟨v, hbv, hv⟩ | hsize⟩ | ⟨v, hname, hv⟩
    · exact ⟨b, hb, Or.inl ⟨v, hbv, (hget v i).2 (Or.inr (hpins ▸ hv))⟩⟩
    · exact ⟨b, hb, Or.inr hsize⟩
    · exact ⟨_, hname, Or.inl ⟨v, rfl, (hget v i).2 (Or.inl ⟨hv, hactive⟩)⟩⟩

end Join

end Layout
end LinearLayout
