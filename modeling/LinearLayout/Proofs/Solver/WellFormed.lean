import LinearLayout.Solver.Call
import LinearLayout.Proofs.Solver.Compile
import LinearLayout.Proofs.Tableau.Removal

/-!
# Reachable solvers

A call changes a solver in few ways: an equation is entered with its key and symbols, one is
taken out, and the objective is minimised.  What these keep holds after every run.
-/

namespace LinearLayout
namespace Solver

variable {K : Type} [Scalar K] {s s' : Solver K} {e : Equation K} {c : Compiled K}
variable {t : Tableau K} {ps : List Pass} {key k : EquationKey} {i : InstalledEquation K}

/-- Installed equations have keys, markers and variables that the solver knows, none shared. -/
structure WellFormed (s : Solver K) : Prop extends s.Numbered where
  key_lt : ∀ k i, s.equations.get? k = some i → k.number < s.nextKey
  known : ∀ k i, s.equations.get? k = some i →
    ∀ term ∈ i.equation.terms, ∃ x, s.symbols.get? term.var = some x
  fits : ∀ k i, s.equations.get? k = some i → i.markers.Fits i.equation
  nodup : ∀ k i, s.equations.get? k = some i → i.markers.symbols.Nodup
  marker_lt : ∀ k i, s.equations.get? k = some i →
    ∀ x ∈ i.markers.symbols, x.index < s.nextIndex
  disjoint : ∀ k i l j, s.equations.get? k = some i → s.equations.get? l = some j → k ≠ l →
    ∀ x ∈ i.markers.symbols, x ∉ j.markers.symbols

section Steps

/-- Replaces the tableau. -/
def withTableau (s : Solver K) (t : Tableau K) : Solver K :=
  { s with tableau := t }

/-- The equation is in force, and nothing has been charged for it yet. -/
def register (s : Solver K) (e : Equation K) (markers : Markers) (t : Tableau K) : Solver K :=
  { s with
    tableau := t
    equations := s.equations.insert ⟨s.nextKey⟩ ⟨e, markers⟩
    nextKey := s.nextKey + 1 }

/-- The equation is no longer in force. -/
def withdraw (s : Solver K) (key : EquationKey) (i : InstalledEquation K) : Solver K :=
  { s with
    tableau := s.tableau.retract i.markers (i.equation.strength.weight?.getD 0)
    equations := s.equations.erase key }

theorem minimise_fst
    (s : Solver K) :
    s.minimise.1 = s.withTableau (s.tableau.minimise .objective s.furtherPivots).1 :=
  rfl

theorem enforce_solver
    (s : Solver K) (e : Equation K) (markers : Markers) (t : Tableau K) (ps : List Pass) :
    (s.enforce e markers t ps).solver =
      (s.register e markers (t.chargeAll markers (e.strength.weight?.getD 0))).minimise.1 :=
  rfl

theorem enforce_passes
    (s : Solver K) (e : Equation K) (markers : Markers) (t : Tableau K) (ps : List Pass) :
    (s.enforce e markers t ps).passes =
      ps ++ [(s.register e markers
        (t.chargeAll markers (e.strength.weight?.getD 0))).minimise.2] :=
  rfl

theorem remove_of_get?_eq_none
    (h : s.equations.get? key = none) :
    s.remove key = ⟨.error (.unknownEquation key), s, []⟩ := by
  simp only [remove, h]

theorem remove_of_get?
    (h : s.equations.get? key = some i) :
    s.remove key =
      ⟨.ok (), (s.withdraw key i).minimise.1, [(s.withdraw key i).minimise.2]⟩ := by
  simp only [remove, h]
  rfl

theorem get?_register
    {markers : Markers} :
    (s.register e markers t).equations.get? k =
      if k = ⟨s.nextKey⟩ then some ⟨e, markers⟩ else s.equations.get? k :=
  OrderedMap.get?_insert _ _ _ _

theorem get?_of_register
    {markers : Markers}
    (h : (s.register e markers t).equations.get? k = some i) :
    (k = ⟨s.nextKey⟩ ∧ i = ⟨e, markers⟩) ∨ s.equations.get? k = some i := by
  rw [get?_register] at h
  split at h
  · next hk => exact Or.inl ⟨hk, (Option.some.inj h).symm⟩
  · exact Or.inr h

theorem get?_withdraw :
    (s.withdraw key i).equations.get? k = if k = key then none else s.equations.get? k :=
  OrderedMap.get?_erase _ _ _

theorem get?_of_withdraw
    {j : InstalledEquation K}
    (h : (s.withdraw key i).equations.get? k = some j) :
    k ≠ key ∧ s.equations.get? k = some j := by
  rw [get?_withdraw] at h
  split at h
  · cases h
  · next hk => exact ⟨hk, h⟩

end Steps

section Invariant

theorem wellFormed_new
    (settings : SolverSettings) :
    (new (K := K) settings).WellFormed where
  consistent := Tableau.consistent_empty.addRow rfl (fun _ _ h => by cases h) (by simp)
    (by simp [Tableau.Nonbasic])
  within := by
    have hempty : (∅ : Tableau K).Within (new (K := K) settings).Issued :=
      fun _ _ h => by cases h
    refine hempty.addRow ⟨Nat.one_pos, fun _ => rfl⟩ ?_
    simp
  isFree v x h := by cases h
  index_lt v x h := by cases h
  injective v w x h := by cases h
  positive := Nat.one_pos
  key_lt k i h := by cases h
  known k i h := by cases h
  fits k i h := by cases h
  nodup k i h := by cases h
  marker_lt k i h := by cases h
  disjoint k i l j h := by cases h

theorem WellFormed.get?_nextKey
    (h : s.WellFormed) :
    s.equations.get? ⟨s.nextKey⟩ = none := by
  cases hk : s.equations.get? ⟨s.nextKey⟩ with
  | none =>
      rfl
  | some i =>
      exact absurd (h.key_lt _ i hk) (Nat.lt_irrefl _)

theorem WellFormed.withTableau
    (h : s.WellFormed)
    (hconsistent : t.Consistent)
    (hwithin : t.Within s.Issued) :
    (s.withTableau t).WellFormed :=
  ⟨⟨hconsistent, hwithin, h.isFree, h.index_lt, h.injective, h.positive⟩, h.key_lt,
    h.known, h.fits, h.nodup, h.marker_lt, h.disjoint⟩

theorem WellFormed.minimise
    (h : s.WellFormed) :
    s.minimise.1.WellFormed := by
  rw [minimise_fst]
  exact h.withTableau (h.consistent.minimise .objective s.furtherPivots)
    (h.within.minimise h.consistent .objective s.furtherPivots)

/-- Handing out symbols disturbs no installed equation. -/
theorem WellFormed.extend
    (h : s.WellFormed)
    (hgrows : s.Extends s')
    (hnumbered : s'.Numbered) :
    s'.WellFormed := by
  refine ⟨hnumbered, ?_, ?_, ?_, ?_, ?_, ?_⟩
  · rw [hgrows.equations, hgrows.nextKey]
    exact h.key_lt
  · rw [hgrows.equations]
    intro k i hk term hterm
    obtain ⟨x, hx⟩ := h.known k i hk term hterm
    exact ⟨x, hgrows.symbols _ x hx⟩
  · rw [hgrows.equations]
    exact h.fits
  · rw [hgrows.equations]
    exact h.nodup
  · rw [hgrows.equations]
    exact fun k i hk x hx => Nat.lt_of_lt_of_le (h.marker_lt k i hk x hx) hgrows.nextIndex
  · rw [hgrows.equations]
    exact h.disjoint

/-- The markers of a compiled equation belong to no installed equation. -/
theorem WellFormed.not_mem_of_compiles
    (h : s.WellFormed)
    (hc : s.Compiles e c)
    (hk : s.equations.get? k = some i) :
    ∀ x ∈ i.markers.symbols, x ∉ c.markers.symbols := by
  intro x hx hxc
  have hlt := h.marker_lt k i hk x hx
  have hle := (hc.new x hxc).1
  omega

theorem WellFormed.register
    (h : s.WellFormed)
    (hc : s.Compiles e c)
    (hgrows : c.solver.Extends s')
    (hnumbered : s'.Numbered)
    (hconsistent : t.Consistent)
    (hwithin : t.Within s'.Issued) :
    (s'.register e c.markers t).WellFormed := by
  have hextends := hc.grows.trans hgrows
  have hs' : s'.WellFormed := h.extend hextends hnumbered
  have hnew : ∀ k i, s'.equations.get? k = some i → ∀ x ∈ i.markers.symbols,
      x ∉ c.markers.symbols := by
    rw [hextends.equations]
    exact fun k i hk => h.not_mem_of_compiles hc hk
  refine ⟨⟨hconsistent, hwithin, hs'.isFree, hs'.index_lt, hs'.injective, hs'.positive⟩,
    fun k i hk => ?_, fun k i hk term hterm => ?_, fun k i hk => ?_, fun k i hk => ?_,
    fun k i hk x hx => ?_, fun k i l j hk hl hkl x hx => ?_⟩
  · rcases get?_of_register hk with ⟨rfl, rfl⟩ | hk
    · exact Nat.lt_succ_self _
    · exact Nat.lt_succ_of_lt (hs'.key_lt k i hk)
  · rcases get?_of_register hk with ⟨rfl, rfl⟩ | hk
    · obtain ⟨x, hx⟩ := hc.known term hterm
      exact ⟨x, hgrows.symbols _ x hx⟩
    · exact hs'.known k i hk term hterm
  · rcases get?_of_register hk with ⟨rfl, rfl⟩ | hk
    · exact hc.fits
    · exact hs'.fits k i hk
  · rcases get?_of_register hk with ⟨rfl, rfl⟩ | hk
    · exact hc.nodup
    · exact hs'.nodup k i hk
  · rcases get?_of_register hk with ⟨rfl, rfl⟩ | hk
    · exact Nat.lt_of_lt_of_le (hc.new x hx).2 hgrows.nextIndex
    · exact hs'.marker_lt k i hk x hx
  · rcases get?_of_register hk with ⟨hkn, rfl⟩ | hk
    · rcases get?_of_register hl with ⟨hln, _⟩ | hl
      · exact absurd (hkn.trans hln.symm) hkl
      · exact fun hxj => hnew l j hl x hxj hx
    · rcases get?_of_register hl with ⟨_, rfl⟩ | hl
      · exact hnew k i hk x hx
      · exact hs'.disjoint k i l j hk hl hkl x hx

theorem WellFormed.issued_marker
    (h : s.WellFormed)
    (hk : s.equations.get? k = some i) :
    ∀ x ∈ i.markers.symbols, s.Issued x :=
  fun x hx => ⟨h.marker_lt k i hk x hx, (h.fits k i hk).1.ordinary hx⟩

theorem WellFormed.withdraw
    (h : s.WellFormed)
    (hk : s.equations.get? key = some i) :
    (s.withdraw key i).WellFormed := by
  have herrors : ∀ x ∈ i.markers.errors, s.Issued x :=
    fun x hx => h.issued_marker hk x (Markers.mem_symbols_of_mem_errors hx)
  refine ⟨⟨h.consistent.retract i.markers _, h.within.retract h.consistent herrors _, h.isFree,
    h.index_lt, h.injective, h.positive⟩, fun k j hj => ?_, fun k j hj => ?_,
    fun k j hj => ?_, fun k j hj => ?_, fun k j hj => ?_, fun k j l m hj hm => ?_⟩
  · exact h.key_lt k j (get?_of_withdraw hj).2
  · exact h.known k j (get?_of_withdraw hj).2
  · exact h.fits k j (get?_of_withdraw hj).2
  · exact h.nodup k j (get?_of_withdraw hj).2
  · exact h.marker_lt k j (get?_of_withdraw hj).2
  · exact h.disjoint k j l m (get?_of_withdraw hj).2 (get?_of_withdraw hm).2

theorem WellFormed.add
    (h : s.WellFormed)
    (e : Equation K) :
    (s.add e).solver.WellFormed := by
  have hc := h.toNumbered.compiles e
  obtain ⟨s', o, ps, henters, hadd⟩ := Compiled.exists_enters s e
  have hnumbered := henters.numbered hc.numbered
  rw [hadd]
  cases o with
  | none =>
      exact h.extend (hc.grows.trans henters.grows) hnumbered
  | some t =>
      obtain ⟨hconsistent, hwithin⟩ := henters.consistent hc
      have hissued : ∀ x ∈ (s.compile e).markers.errors, s'.Issued x :=
        fun x hx => hc.issued_marker henters.grows x (Markers.mem_symbols_of_mem_errors hx)
      rw [Compiled.conclude, enforce_solver]
      exact (h.register hc henters.grows hnumbered (hconsistent.chargeAll _ _)
        (hwithin.chargeAll hissued _)).minimise

theorem WellFormed.remove
    (h : s.WellFormed)
    (key : EquationKey) :
    (s.remove key).solver.WellFormed := by
  cases hk : s.equations.get? key with
  | none =>
      rw [remove_of_get?_eq_none hk]
      exact h
  | some i =>
      rw [remove_of_get? hk]
      exact (h.withdraw hk).minimise

end Invariant

section Runs

variable {P : Solver K → Prop}

/-- What the three changing calls keep, every run keeps. -/
theorem run_induction
    (add : ∀ s e, P s → P (s.add e).solver)
    (remove : ∀ s key, P s → P (s.remove key).solver)
    (solve : ∀ s, P s → P s.solve.solver)
    (h : P s)
    (calls : List (Call K)) :
    P (s.run calls) := by
  induction calls generalizing s with
  | nil =>
      exact h
  | cons call calls ih =>
      refine ih ?_
      cases call with
      | add e => exact add s e h
      | remove key => exact remove s key h
      | solve => exact solve s h
      | value v => exact h
      | contains key => exact h
      | size => exact h
      | objectiveValue => exact h

/-- Every pass of a run belongs to a call that is answered in a reachable state. -/
theorem exists_of_mem_passes
    {p : Pass} {calls : List (Call K)}
    (h : p ∈ s.passes calls) :
    ∃ before call after, calls = before ++ call :: after ∧
      p ∈ ((s.run before).answer call).2.2 := by
  induction calls generalizing s with
  | nil =>
      cases h
  | cons call calls ih =>
      rcases List.mem_append.1 h with h | h
      · exact ⟨[], call, calls, rfl, h⟩
      · obtain ⟨before, later, after, rfl, hp⟩ := ih h
        exact ⟨call :: before, later, after, rfl, hp⟩

theorem WellFormed.answer
    (h : s.WellFormed)
    (call : Call K) :
    (s.answer call).2.1.WellFormed :=
  run_induction (fun _ e h => h.add e) (fun _ key h => h.remove key) (fun _ h => h.minimise) h
    [call]

theorem wellFormed_run
    (settings : SolverSettings) (calls : List (Call K)) :
    ((new settings).run calls).WellFormed :=
  run_induction (fun _ e h => h.add e) (fun _ key h => h.remove key) (fun _ h => h.minimise)
    (wellFormed_new settings) calls

end Runs

end Solver
end LinearLayout
