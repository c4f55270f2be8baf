import LinearLayout.Proofs.Tableau.Related

/-!
# Related tableaux in lockstep

Every choice that is made in a tableau falls on corresponding symbols of a related one: the symbol
and the row of a pivot, the symbol a row is solved for, the row a marker is pivoted into.  So
minimising, entering a row and taking one out leave related tableaux, and a row is accepted by
both or by none.
-/

namespace LinearLayout

open Relator

variable {K : Type} [Scalar K] {R : Symbol → Symbol → Prop} {x y b b' : Symbol}
variable {t t' : Tableau K} {row row' : Row K} {k : K}

section Choices

/-- Equal ratios at corresponding symbols. -/
def Candidate.Related (R : Symbol → Symbol → Prop) (c d : Candidate K) : Prop :=
  c.ratio = d.ratio ∧ R c.symbol d.symbol

theorem Candidate.Related.least
    {o o' : Option (Candidate K)} {c c' : Candidate K}
    (hc : Candidate.Related R c c')
    (ho : Option.Rel (Candidate.Related R) o o') :
    Option.Rel (Candidate.Related R) (Candidate.least o c) (Candidate.least o' c') := by
  cases ho with
  | none =>
      exact Option.Rel.some hc
  | @some d d' hd =>
      rw [Candidate.least, Candidate.least, hc.1, hd.1]
      split
      · exact Option.Rel.some hc
      · exact Option.Rel.some hd

omit [Scalar K] in
theorem rel_map_symbol
    {o o' : Option (Candidate K)}
    (ho : Option.Rel (Candidate.Related R) o o') :
    Option.Rel R (o.map Candidate.symbol) (o'.map Candidate.symbol) := by
  cases ho with
  | none => exact Option.Rel.none
  | some hc => exact Option.Rel.some hc.2

theorem rel_orElse
    {α : Type} {A : α → α → Prop} {o o' p p' : Option α}
    (ho : Option.Rel A o o')
    (hp : Option.Rel A p p') :
    Option.Rel A (o <|> p) (o' <|> p') := by
  cases ho with
  | none => exact hp
  | some ha => exact Option.Rel.some ha

namespace Tableau

variable (h : Related R t t') (hR : Symbol.Matching R)

include h hR

theorem Related.entering?
    (hxy : R x y) :
    Option.Rel R (t.entering? x) (t'.entering? y) := by
  unfold Tableau.entering?
  rcases cases_of_rel (h.row? hR.unique hxy) with
    ⟨hnone, hnone'⟩ | ⟨row, row', hrow, hrow', hr⟩
  · rw [hnone, hnone']
    exact Option.Rel.none
  · rw [hrow, hrow', Option.bind_some, Option.bind_some]
    have hfind := find?_related
      (p := fun c => c.1.isSlack && Scalar.less c.2 0)
      (q := fun c => c.1.isSlack && Scalar.less c.2 0) hr.cells fun c c' hc => by
        rw [hR.isSlack hc.1, hc.2]
    rcases cases_of_rel hfind with ⟨hc, hc'⟩ | ⟨c, c', hc, hc', hcell⟩
    · rw [hc, hc']
      exact Option.Rel.none
    · rw [hc, hc']
      exact Option.Rel.some hcell.1

theorem Related.bound?
    (hxy : R x y)
    (hb : R b b') :
    Option.Rel (Candidate.Related R) (t.bound? x b) (t'.bound? y b') := by
  unfold Tableau.bound?
  rw [hR.isRestricted hb]
  split
  · rcases cases_of_rel (h.row? hR.unique hb) with ⟨hnone, hnone'⟩ | ⟨row, row', hrow, hrow', hr⟩
    · rw [hnone, hnone']
      exact Option.Rel.none
    · rw [hrow, hrow', Option.bind_some, Option.bind_some, hr.coefficient hR.unique hxy,
        hr.constant]
      dsimp only
      split
      · exact Option.Rel.some ⟨rfl, hb⟩
      · exact Option.Rel.none
  · exact Option.Rel.none

theorem Related.leaving?
    (hxy : R x y) :
    Option.Rel R (t.leaving? x) (t'.leaving? y) := by
  unfold Tableau.leaving?
  have hcandidates : List.Forall₂ (Candidate.Related R) ((t.column x).filterMap (t.bound? x))
      ((t'.column y).filterMap (t'.bound? y)) :=
    List.rel_filterMap (R := R) (fun _ _ hb => h.bound? hR hxy hb) (h.column hxy)
  refine rel_map_symbol (List.rel_foldl (P := Option.Rel (Candidate.Related R)) ?_ Option.Rel.none
    hcandidates)
  exact fun _ _ ho _ _ hc => hc.least ho

end Tableau

end Choices

namespace Tableau

section Minimise

/-- Related tableaux agree about the next pivot of a minimisation and stay related by it. -/
theorem Related.next
    {o o' : Symbol}
    (h : Related R t t')
    (hR : Symbol.Matching R)
    (ho : R o o') :
    (t.entering? o = none ∧ t'.entering? o' = none) ∨
      ∃ e e', t.entering? o = some e ∧ t'.entering? o' = some e' ∧
        ((t.leaving? e = none ∧ t'.leaving? e' = none) ∨
          ∃ l l', t.leaving? e = some l ∧ t'.leaving? e' = some l' ∧
            Related R (t.pivot e l) (t'.pivot e' l')) := by
  rcases cases_of_rel (h.entering? hR ho) with hnone | ⟨e, e', he, he', hentering⟩
  · exact Or.inl hnone
  · refine Or.inr ⟨e, e', he, he', ?_⟩
    rcases cases_of_rel (h.leaving? hR hentering) with hnone | ⟨l, l', hl, hl', hleaving⟩
    · exact Or.inl hnone
    · exact Or.inr ⟨l, l', hl, hl', h.pivot hR.unique hentering hleaving⟩

/-- Related tableaux go through the same pivots, and both minimisations end in the same way. -/
theorem Related.minimise
    {o o' : Symbol}
    (h : Related R t t')
    (hR : Symbol.Matching R)
    (ho : R o o')
    (further : Nat) :
    Related R (t.minimise o further).1 (t'.minimise o' further).1 ∧
      (t.minimise o further).2 = (t'.minimise o' further).2 := by
  induction further generalizing t t' with
  | zero =>
      unfold Tableau.minimise
      rcases h.next hR ho with
        ⟨he, he'⟩ | ⟨e, e', he, he', ⟨hl, hl'⟩ | ⟨l, l', hl, hl', hpivot⟩⟩
      · rw [he, he']
        exact ⟨h, rfl⟩
      · simp only [he, he', hl, hl']
        exact ⟨h, trivial⟩
      · simp only [he, he', hl, hl']
        exact ⟨hpivot, trivial⟩
  | succ n ih =>
      unfold Tableau.minimise
      rcases h.next hR ho with
        ⟨he, he'⟩ | ⟨e, e', he, he', ⟨hl, hl'⟩ | ⟨l, l', hl, hl', hpivot⟩⟩
      · rw [he, he']
        exact ⟨h, rfl⟩
      · simp only [he, he', hl, hl']
        exact ⟨h, trivial⟩
      · simp only [he, he', hl, hl']
        exact ih hpivot

end Minimise

end Tableau

section Entering

/-- A row enters in the same way, solved for corresponding symbols. -/
inductive Entry.Related (R : Symbol → Symbol → Prop) : Entry → Entry → Prop where
  | solveFor {x y : Symbol} : R x y → Related R (.solveFor x) (.solveFor y)
  | artificial : Related R .artificial .artificial
  | conflict : Related R .conflict .conflict

namespace Tableau

theorem Related.chooseEntry
    (h : Related R t t')
    (hR : Symbol.Matching R)
    (hrow : Row.Related R row row') :
    Entry.Related R (t.chooseEntry row) (t'.chooseEntry row') := by
  unfold Tableau.chooseEntry
  have hfree := find?_related (p := Symbol.isFree) (q := Symbol.isFree) hrow.symbols
    fun _ _ hxy => hR.isFree hxy
  have hslack := find?_related
    (p := fun c => c.1.isSlack && Scalar.less c.2 0 && !t.isReferenced c.1)
    (q := fun c => c.1.isSlack && Scalar.less c.2 0 && !t'.isReferenced c.1) hrow.cells
    fun c c' hc => by rw [hR.isSlack hc.1, hc.2, h.isReferenced hc.1]
  have hdummies := all_related (p := Symbol.isDummy) (q := Symbol.isDummy) hrow.symbols
    fun _ _ hxy => hR.isDummy hxy
  have hlast := getLast?_related (filter_related (p := fun s => !t.isReferenced s)
    (q := fun s => !t'.isReferenced s) hrow.symbols fun _ _ hxy => by rw [h.isReferenced hxy])
  rcases cases_of_rel hfree with ⟨hs, hs'⟩ | ⟨s, s', hs, hs', hss⟩
  · rw [hs, hs']
    dsimp only
    rcases cases_of_rel hslack with ⟨hc, hc'⟩ | ⟨c, c', hc, hc', hcc⟩
    · rw [hc, hc']
      dsimp only
      rw [hdummies, hrow.constant]
      split
      · split
        · rcases cases_of_rel hlast with ⟨hl, hl'⟩ | ⟨l, l', hl, hl', hll⟩
          · rw [hl, hl']
            exact Entry.Related.artificial
          · rw [hl, hl']
            exact Entry.Related.solveFor hll
        · exact Entry.Related.conflict
      · exact Entry.Related.artificial
    · rw [hc, hc']
      exact Entry.Related.solveFor hcc.1
  · rw [hs, hs']
    exact Entry.Related.solveFor hss

theorem Related.install
    (h : Related R t t')
    (hR : BiUnique R)
    (hxy : R x y)
    (hrow : Row.Related R row row') :
    Related R (t.install x row) (t'.install y row') :=
  (h.substitute hR hxy (hrow.solveFor hR hxy)).addRow hR hxy (hrow.solveFor hR hxy)

theorem Related.dropArtificial
    (h : Related R t t')
    (hR : Symbol.Matching R)
    (hxy : R x y) :
    Option.Rel (Related R) (t.dropArtificial x) (t'.dropArtificial y) := by
  unfold Tableau.dropArtificial
  rcases cases_of_rel (h.row? hR.unique hxy) with ⟨hnone, hnone'⟩ | ⟨row, row', hrow, hrow', hr⟩
  · rw [hnone, hnone']
    exact Option.Rel.some (h.removeColumn hR.unique hxy)
  · rw [hrow, hrow']
    dsimp only
    rw [hr.isConstant]
    split
    · rcases h.removeRow hR.unique hxy with ⟨hu, hu'⟩ | ⟨_, _, u, u', hu, hu', _, hrest⟩
      · rw [hu, hu']
        exact Option.Rel.none
      · rw [hu, hu']
        exact Option.Rel.some hrest
    · have hfind := find?_related (p := Symbol.isSlack) (q := Symbol.isSlack) hr.symbols
        fun _ _ hij => hR.isSlack hij
      rcases cases_of_rel hfind with ⟨he, he'⟩ | ⟨e, e', he, he', hentering⟩
      · rw [he, he']
        exact Option.Rel.none
      · rw [he, he']
        exact Option.Rel.some ((h.pivot hR.unique hentering hxy).removeColumn hR.unique hxy)

/-- A row is accepted in both tableaux or in none. -/
theorem Related.tryAccept
    {artificial artificial' goal goal' : Symbol}
    (h : Related R t t')
    (hR : Symbol.Matching R)
    (hartificial : R artificial artificial')
    (hgoal : R goal goal')
    (hrow : Row.Related R row row')
    (further : Nat) :
    Option.Rel (Related R) (t.tryAccept row artificial goal further).1
        (t'.tryAccept row' artificial' goal' further).1 ∧
      (t.tryAccept row artificial goal further).2 =
        (t'.tryAccept row' artificial' goal' further).2 := by
  have hadded := (h.addRow hR.unique hgoal hrow).addRow hR.unique hartificial hrow
  obtain ⟨hminimised, hending⟩ := hadded.minimise hR hgoal further
  unfold Tableau.tryAccept
  dsimp only
  rcases hminimised.removeRow hR.unique hgoal with
    ⟨hu, hu'⟩ | ⟨reached, reached', u, u', hu, hu', hreached, hrest⟩
  · rw [hu, hu']
    exact ⟨Option.Rel.none, hending⟩
  · rw [hu, hu']
    dsimp only
    rw [hreached.constant]
    split
    · exact ⟨hrest.dropArtificial hR hartificial, hending⟩
    · exact ⟨Option.Rel.none, hending⟩

end Tableau

end Entering

section Markers

/-- Markers of the same kind with corresponding symbols. -/
inductive Markers.Related (R : Symbol → Symbol → Prop) : Markers → Markers → Prop where
  | rigid {x y : Symbol} : R x y → Related R (.rigid x) (.rigid y)
  | elastic {x y i j : Symbol} : R x y → R i j → Related R (.elastic x i) (.elastic y j)
  | bounded {x y : Symbol} : R x y → Related R (.bounded x) (.bounded y)
  | yielding {x y i j : Symbol} : R x y → R i j → Related R (.yielding x i) (.yielding y j)

variable {markers markers' : Markers}

theorem Markers.Related.imp
    {Q : Symbol → Symbol → Prop}
    (h : Markers.Related R markers markers')
    (hRQ : ∀ x y, R x y → Q x y) :
    Markers.Related Q markers markers' := by
  cases h with
  | rigid hxy => exact .rigid (hRQ _ _ hxy)
  | elastic hxy hij => exact .elastic (hRQ _ _ hxy) (hRQ _ _ hij)
  | bounded hxy => exact .bounded (hRQ _ _ hxy)
  | yielding hxy hij => exact .yielding (hRQ _ _ hxy) (hRQ _ _ hij)

theorem Markers.Related.marker
    (h : Markers.Related R markers markers') :
    R markers.marker markers'.marker := by
  cases h with
  | rigid hxy => exact hxy
  | elastic hxy _ => exact hxy
  | bounded hxy => exact hxy
  | yielding hxy _ => exact hxy

theorem Markers.Related.errors
    (h : Markers.Related R markers markers') :
    List.Forall₂ R markers.errors markers'.errors := by
  cases h with
  | rigid _ => exact .nil
  | elastic hxy hij => exact .cons hxy (.cons hij .nil)
  | bounded _ => exact .nil
  | yielding _ hij => exact .cons hij .nil

namespace Tableau

theorem Related.charge
    (h : Related R t t')
    (hR : Symbol.Matching R)
    (hxy : R x y)
    (k : K) :
    Related R (t.charge k x) (t'.charge k y) := by
  unfold Tableau.charge
  rcases cases_of_rel (h.row? hR.unique hxy) with ⟨hnone, hnone'⟩ | ⟨row, row', hrow, hrow', hr⟩
  · rw [hnone, hnone']
    exact h.addTermTo hR.unique hR.objective hxy
  · rw [hrow, hrow']
    exact h.addRowTo hR.unique hR.objective hr

theorem Related.chargeAll
    (h : Related R t t')
    (hR : Symbol.Matching R)
    (hmarkers : Markers.Related R markers markers')
    (k : K) :
    Related R (t.chargeAll markers k) (t'.chargeAll markers' k) := by
  refine List.rel_foldl (P := Related R) ?_ h hmarkers.errors
  exact fun _ _ hu _ _ hxy => hu.charge hR hxy k

end Tableau

/-- The best rows of each kind correspond. -/
structure Exits.Related (R : Symbol → Symbol → Prop) (e e' : Exits K) : Prop where
  negative : Option.Rel (Candidate.Related R) e.negative e'.negative
  positive : Option.Rel (Candidate.Related R) e.positive e'.positive
  free : Option.Rel R e.free e'.free

theorem Exits.Related.consider
    {e e' : Exits K}
    (he : Exits.Related R e e')
    (h : Tableau.Related R t t')
    (hR : Symbol.Matching R)
    (hxy : R x y)
    (hb : R b b') :
    Exits.Related R (e.consider t x b) (e'.consider t' y b') := by
  unfold Exits.consider
  rw [hR.isObjective hb]
  split
  · exact he
  · rcases cases_of_rel (h.row? hR.unique hb) with ⟨hnone, hnone'⟩ | ⟨row, row', hrow, hrow', hr⟩
    · rw [hnone, hnone']
      exact he
    · rw [hrow, hrow']
      dsimp only
      rw [hR.isRestricted hb, hr.coefficient hR.unique hxy, hr.constant]
      split
      · split
        · exact ⟨Candidate.Related.least ⟨rfl, hb⟩ he.negative, he.positive, he.free⟩
        · exact ⟨he.negative, Candidate.Related.least ⟨rfl, hb⟩ he.positive, he.free⟩
      · exact ⟨he.negative, he.positive, rel_orElse he.free (Option.Rel.some hb)⟩

namespace Tableau

theorem Related.exit?
    (h : Related R t t')
    (hR : Symbol.Matching R)
    (hxy : R x y) :
    Option.Rel R (t.exit? x) (t'.exit? y) := by
  have hexits : Exits.Related R ((t.column x).foldl (Exits.consider t x) Exits.none)
      ((t'.column y).foldl (Exits.consider t' y) Exits.none) := by
    refine List.rel_foldl (P := Exits.Related R) ?_
      ⟨Option.Rel.none, Option.Rel.none, Option.Rel.none⟩ (h.column hxy)
    exact fun _ _ he _ _ hb => he.consider h hR hxy hb
  exact rel_orElse (rel_map_symbol (rel_orElse hexits.negative hexits.positive)) hexits.free

theorem Related.deleteMarker
    (h : Related R t t')
    (hR : Symbol.Matching R)
    (hxy : R x y) :
    Related R (t.deleteMarker x) (t'.deleteMarker y) := by
  unfold Tableau.deleteMarker
  rcases h.removeRow hR.unique hxy with ⟨hu, hu'⟩ | ⟨_, _, u, u', hu, hu', _, hrest⟩
  · rw [hu, hu']
    dsimp only
    rcases cases_of_rel (h.exit? hR hxy) with ⟨he, he'⟩ | ⟨l, l', hl, hl', hleaving⟩
    · rw [he, he']
      exact h.removeColumn hR.unique hxy
    · rw [hl, hl']
      have hpivot := h.pivot hR.unique hxy hleaving
      dsimp only
      unfold Tableau.deleteRow
      rcases hpivot.removeRow hR.unique hxy with ⟨hv, hv'⟩ | ⟨_, _, v, v', hv, hv', _, hrest⟩
      · rw [hv, hv']
        exact hpivot
      · rw [hv, hv']
        exact hrest
  · rw [hu, hu']
    exact hrest

theorem Related.retract
    (h : Related R t t')
    (hR : Symbol.Matching R)
    (hmarkers : Markers.Related R markers markers')
    (weight : K) :
    Related R (t.retract markers weight) (t'.retract markers' weight) := by
  have hdeleted := (h.chargeAll hR hmarkers (-weight)).deleteMarker hR hmarkers.marker
  refine List.rel_foldl (P := Related R) ?_ hdeleted
    (filter_related hmarkers.errors fun x y hxy => ?_)
  · exact fun _ _ hu _ _ hxy => hu.removeColumn hR.unique hxy
  · simpa using rel_eq hR.unique hxy hmarkers.marker

end Tableau

end Markers

end LinearLayout
