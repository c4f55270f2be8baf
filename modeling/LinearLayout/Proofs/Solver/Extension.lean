import LinearLayout.Proofs.Solver.Exact
import LinearLayout.Proofs.Tableau.Dummies

/-!
# Extending values of the variables

Given values of the variables, the markers of every installed equation can be chosen so that its
compiled form holds.  If all required equations are satisfied then no restricted symbol becomes
negative and all dummies are zero.
-/

namespace LinearLayout

namespace Markers

variable {markers : Markers} {room : Rat} {σ : Assignment} {x : Symbol}

/-- The values of the markers that take up a room, each direction of it with its own symbol. -/
def share (markers : Markers) (room : Rat) (x : Symbol) : Rat :=
  match markers with
  | rigid _ => -room
  | elastic plus _ => if x = plus then max room 0 else max (-room) 0
  | bounded _ => room
  | yielding slack _ => if x = slack then max room 0 else max (-room) 0

theorem residual_eq_zero_of_share
    (hnodup : markers.symbols.Nodup)
    (h : ∀ x ∈ markers.symbols, σ x = markers.share room x) :
    markers.residual room σ = 0 := by
  have hparts : room - max room 0 + max (-room) 0 = 0 := by
    rcases le_total room 0 with hle | hle
    · rw [max_eq_right hle, max_eq_left (neg_nonneg.2 hle)]
      ring
    · rw [max_eq_left hle, max_eq_right (neg_nonpos.2 hle)]
      ring
  cases markers with
  | rigid dummy =>
      rw [residual, h dummy List.mem_cons_self, share]
      ring
  | elastic plus minus =>
      have hne : minus ≠ plus := by
        rintro rfl
        simp [symbols] at hnodup
      rw [residual, h plus List.mem_cons_self,
        h minus (List.mem_cons_of_mem _ List.mem_cons_self), share, share, if_pos rfl, if_neg hne,
        hparts]
  | bounded slack =>
      rw [residual, h slack List.mem_cons_self, share]
      ring
  | yielding slack error =>
      have hne : error ≠ slack := by
        rintro rfl
        simp [symbols] at hnodup
      rw [residual, h slack List.mem_cons_self,
        h error (List.mem_cons_of_mem _ List.mem_cons_self), share, share, if_pos rfl, if_neg hne,
        hparts]

/-- A satisfied or preferred equation leaves no negative share. -/
theorem share_nonneg
    {e : Equation Rat} {ν : Variable → Rat}
    (h : markers.Fits e)
    (hsatisfied : e.strength.isRequired = true → e.Satisfied ν)
    (x : Symbol) :
    0 ≤ markers.share (e.room ν) x := by
  cases markers with
  | rigid dummy =>
      obtain ⟨_, hrelation, hrequired⟩ := h
      rw [share, (Equation.satisfied_iff_room_eq_zero hrelation).1 (hsatisfied hrequired), neg_zero]
  | elastic plus minus =>
      rw [share]
      split
      · exact le_max_right _ _
      · exact le_max_right _ _
  | bounded slack =>
      obtain ⟨_, hrelation, hrequired⟩ := h
      exact (Equation.satisfied_iff_room_nonneg hrelation).1 (hsatisfied hrequired)
  | yielding slack error =>
      rw [share]
      split
      · exact le_max_right _ _
      · exact le_max_right _ _

/-- Only the markers of required equalities are dummies. -/
theorem eq_rigid_of_isDummy
    {d : Symbol}
    (h : markers.Proper)
    (hd : d ∈ markers.symbols)
    (hdummy : d.isDummy = true) :
    markers = .rigid d := by
  have hslack : ∀ y : Symbol, y.isSlack = true → d ≠ y := by
    rintro y hy rfl
    rw [Symbol.isDummy_eq_false_of_isSlack hy] at hdummy
    cases hdummy
  cases markers with
  | rigid dummy =>
      rw [List.mem_singleton.1 hd]
  | elastic plus minus =>
      simp [symbols, hslack plus h.1, hslack minus h.2] at hd
  | bounded slack =>
      simp [symbols, hslack slack h] at hd
  | yielding slack error =>
      simp [symbols, hslack slack h.1, hslack error h.2] at hd

end Markers

namespace Solver

variable {s : Solver Rat} {ν : Variable → Rat} {k : EquationKey} {i : InstalledEquation Rat}
variable {x : Symbol} {v : Variable}

/-- Unknowns have the values of their variables, and markers share the room of their equation. -/
def extension (s : Solver Rat) (ν : Variable → Rat) : Assignment := fun x =>
  match s.symbols.entries.find? fun entry => entry.2 = x with
  | some entry => ν entry.1
  | none =>
    match s.equations.entries.find? fun entry => x ∈ entry.2.markers.symbols with
    | some entry => entry.2.markers.share (entry.2.equation.room ν) x
    | none => 0

theorem WellFormed.extension_unknown
    (h : s.WellFormed)
    (hv : s.symbols.get? v = some x) :
    s.extension ν x = ν v := by
  unfold extension
  split
  · next entry hentry =>
      have hmem := OrderedMap.get?_eq_some_iff.2 (List.mem_of_find?_eq_some hentry)
      have hx : entry.2 = x := by simpa using List.find?_some hentry
      rw [hx] at hmem
      rw [h.injective entry.1 v x hmem hv]
  · next hnone =>
      have hfalse := List.find?_eq_none.1 hnone (v, x) (OrderedMap.get?_eq_some_iff.1 hv)
      simp at hfalse

/-- A restricted symbol is no unknown. -/
theorem WellFormed.find?_unknown_eq_none
    (h : s.WellFormed)
    (hx : x.isFree = false) :
    (s.symbols.entries.find? fun entry => entry.2 = x) = none := by
  refine List.find?_eq_none.2 fun entry hentry => ?_
  have hfree := h.isFree entry.1 entry.2 (OrderedMap.get?_eq_some_iff.2 hentry)
  intro hex
  rw [of_decide_eq_true hex, hx] at hfree
  cases hfree

theorem WellFormed.extension_marker
    (h : s.WellFormed)
    (hk : s.equations.get? k = some i)
    (hx : x ∈ i.markers.symbols) :
    s.extension ν x = i.markers.share (i.equation.room ν) x := by
  have hfree := (Symbol.isRestricted_iff.1 ((h.fits k i hk).1.isRestricted hx)).1
  unfold extension
  rw [h.find?_unknown_eq_none hfree]
  dsimp only
  split
  · next entry hentry =>
      have hmem := OrderedMap.get?_eq_some_iff.2 (List.mem_of_find?_eq_some hentry)
      have hxe : x ∈ entry.2.markers.symbols := by simpa using List.find?_some hentry
      by_cases hke : k = entry.1
      · subst hke
        rw [hk] at hmem
        cases hmem
        rfl
      · exact absurd hxe (h.disjoint k i entry.1 entry.2 hk hmem hke x hx)
  · next hnone =>
      have hfalse := List.find?_eq_none.1 hnone (k, i) (OrderedMap.get?_eq_some_iff.1 hk)
      simp [hx] at hfalse

/-- A restricted symbol is a marker, or its value is zero. -/
theorem WellFormed.extension_restricted
    (h : s.WellFormed)
    (hx : x.isRestricted = true)
    (ν : Variable → Rat) :
    (∃ k i, s.equations.get? k = some i ∧ x ∈ i.markers.symbols ∧
        s.extension ν x = i.markers.share (i.equation.room ν) x) ∨
      s.extension ν x = 0 := by
  cases hfind : s.equations.entries.find? fun entry => x ∈ entry.2.markers.symbols with
  | some entry =>
      have hmem := OrderedMap.get?_eq_some_iff.2 (List.mem_of_find?_eq_some hfind)
      have hxe : x ∈ entry.2.markers.symbols := by simpa using List.find?_some hfind
      exact Or.inl ⟨entry.1, entry.2, hmem, hxe, h.extension_marker hmem hxe⟩
  | none =>
      refine Or.inr ?_
      unfold extension
      rw [h.find?_unknown_eq_none (Symbol.isRestricted_iff.1 hx).1, hfind]

theorem WellFormed.room_extension
    (h : s.WellFormed)
    (hk : s.equations.get? k = some i)
    (ν : Variable → Rat) :
    i.equation.room (s.valuation (s.extension ν)) = i.equation.room ν := by
  refine Equation.room_congr fun term hterm => ?_
  obtain ⟨x, hx⟩ := h.known k i hk term hterm
  rw [valuation_of_get? hx, h.extension_unknown hx]

/-- Any values of the variables extend to values at which every compiled equation holds. -/
theorem WellFormed.denoted_extension
    (h : s.WellFormed)
    (ν : Variable → Rat) :
    s.Denoted (s.extension ν) := by
  intro k i hk
  rw [InstalledEquation.Holds, h.room_extension hk]
  exact Markers.residual_eq_zero_of_share (h.nodup k i hk) fun x hx => h.extension_marker hk hx

/-- All installed equations that are required are satisfied. -/
def Satisfied (s : Solver Rat) (ν : Variable → Rat) : Prop :=
  ∀ k i, s.equations.get? k = some i → i.equation.strength.isRequired = true →
    i.equation.Satisfied ν

theorem WellFormed.nonneg_extension
    (h : s.WellFormed)
    (hν : s.Satisfied ν) :
    (s.extension ν).Nonneg := by
  intro x hx
  rcases h.extension_restricted hx ν with ⟨k, i, hk, _, hvalue⟩ | hvalue
  · rw [hvalue]
    exact Markers.share_nonneg (h.fits k i hk) (hν k i hk) x
  · rw [hvalue]

/-- The dummies of satisfied equalities are zero. -/
theorem WellFormed.extension_dummy
    (h : s.WellFormed)
    (hx : x.isDummy = true)
    (hν : ∀ k i, s.equations.get? k = some i → i.markers = .rigid x → i.equation.Satisfied ν) :
    s.extension ν x = 0 := by
  rcases h.extension_restricted (Symbol.isRestricted_of_isDummy hx) ν with
    ⟨k, i, hk, hmem, hvalue⟩ | hvalue
  · have hfits := h.fits k i hk
    have hrigid := Markers.eq_rigid_of_isDummy hfits.1 hmem hx
    have hsatisfied := hν k i hk hrigid
    rw [hrigid] at hfits
    rw [hvalue, hrigid, Markers.share,
      (Equation.satisfied_iff_room_eq_zero hfits.2.1).1 hsatisfied, neg_zero]
  · exact hvalue

theorem WellFormed.extension_dummy_of_satisfied
    (h : s.WellFormed)
    (hx : x.isDummy = true)
    (hν : s.Satisfied ν) :
    s.extension ν x = 0 := by
  refine h.extension_dummy hx fun k i hk hrigid => hν k i hk ?_
  have hfits := h.fits k i hk
  rw [hrigid] at hfits
  exact hfits.2.2

end Solver
end LinearLayout
