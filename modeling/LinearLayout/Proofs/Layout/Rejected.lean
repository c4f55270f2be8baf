import LinearLayout.Proofs.Layout.Solvers
import LinearLayout.Proofs.Solver.Ledger
import LinearLayout.Proofs.Solver.Optimal

/-!
# Refused constraints

When a constraint is refused, only the solver has changed, and it has the same equations under the
same keys as before.  If the first equation was refused, or the constraint was not tried at all,
then all values are as before, too.  Equations that were accepted before the refusal are taken back
one by one, and that can end at other values.
-/

namespace LinearLayout
namespace Solver

variable {K : Type} [Scalar K] {s t : Solver K} {e : Equation K} {cause : SolverError}

/-- A refused equation leaves all values alone: what it added to the solver are unused symbols. -/
theorem Numbered.value_add_of_error
    (h : s.Numbered)
    (herror : (s.add e).result = .error cause)
    (v : Variable) :
    (s.add e).solver.value v = s.value v := by
  have hc := h.compiles e
  obtain ⟨s', o, ps, henters, hadd⟩ := Compiled.exists_enters s e
  cases o with
  | some t =>
      rw [hadd] at herror
      cases herror
  | none =>
      have hsolver : (s.add e).solver = s' := by rw [hadd]; rfl
      have hextends := hc.grows.trans henters.grows
      rw [hsolver, value, value, hextends.tableau]
      cases hv : s'.symbols.get? v with
      | none =>
          have hnone : s.symbols.get? v = none := by
            cases hs : s.symbols.get? v with
            | none => rfl
            | some x => rw [hextends.symbols v x hs] at hv; cases hv
          rw [hnone]
      | some x =>
          rw [henters.symbols] at hv
          rcases get?_compile_eq_some hv with hold | ⟨hnone, hnew, _⟩
          · rw [hold]
          · rw [hnone, Option.bind_some, (h.fresh_of_le hnew).1]
            rfl

theorem equations_removeAll
    (s : Solver K) (keys : List EquationKey) :
    (s.removeAll keys).equations = keys.foldl OrderedMap.erase s.equations := by
  induction keys generalizing s with
  | nil =>
      rfl
  | cons key keys ih =>
      rw [List.foldl_cons, ← equations_remove]
      exact ih (s.remove key).solver

theorem foldl_erase_erase
    {α : Type} {m : OrderedMap EquationKey α}
    (keys : List EquationKey) (key : EquationKey) :
    (keys.foldl OrderedMap.erase m).erase key = keys.foldl OrderedMap.erase (m.erase key) := by
  induction keys generalizing m with
  | nil =>
      rfl
  | cons k keys ih =>
      rw [List.foldl_cons, List.foldl_cons, ih, OrderedMap.erase_comm]

/-- When one of several equations is refused, those accepted before it are struck out again. -/
theorem WellFormed.equations_addAll_of_error
    (h : s.WellFormed)
    {keys : List EquationKey} {es : List (Equation K)}
    (hadd : s.addAll keys es = (.error cause, t)) :
    t.equations = keys.foldl OrderedMap.erase s.equations := by
  induction es generalizing s keys with
  | nil =>
      cases hadd
  | cons e es ih =>
      rw [addAll] at hadd
      rcases h.toNumbered.extends_or_enters e with ⟨hresult, hextends⟩ | ⟨hresult, henters⟩
      · rw [hresult] at hadd
        cases hadd
        rw [equations_removeAll, hextends.equations]
      · rw [hresult] at hadd
        obtain ⟨markers, hequations⟩ := henters.equations
        have hnew : ⟨s.nextKey⟩ ∉ s.equations.keys := OrderedMap.get?_eq_none_iff.1 h.get?_nextKey
        rw [ih (h.add e) hadd, List.foldl_append, List.foldl_cons, List.foldl_nil,
          foldl_erase_erase, hequations, OrderedMap.erase_insert_of_not_mem _ hnew]

end Solver

namespace Layout

variable {K : Type} [Scalar K] {l : Layout K} {c : Constraint K} {cause : LayoutError K}

/-- A constraint is refused before anything was tried, or by a solver that has changed meanwhile. -/
theorem add_of_error
    (herror : (l.add c).1 = .error cause) :
    ∃ s, (l.add c).2 = { l with solver := s } ∧
      (s = l.solver ∧ l.unmanaged? c ≠ none ∨ l.unmanaged? c = none ∧
        ∃ reason, l.solver.addAll [] c.equations = (.error reason, s)) := by
  unfold Layout.add at herror ⊢
  split
  · next hactive =>
    rw [if_pos hactive] at herror
    cases herror
  · next hactive =>
    rw [if_neg hactive] at herror
    unfold Layout.install at herror ⊢
    cases hforeign : l.unmanaged? c with
    | some e => exact ⟨l.solver, rfl, Or.inl ⟨rfl, nofun⟩⟩
    | none =>
        rw [hforeign] at herror
        rcases hadd : l.solver.addAll [] c.equations with ⟨reason | keys, s⟩
        · exact ⟨s, rfl, Or.inr ⟨rfl, reason, rfl⟩⟩
        · rw [hadd] at herror
          cases herror

/-- A refusal leaves the installed equations as they were, with their keys and in their order. -/
theorem equations_add_of_error
    (h : l.solver.WellFormed)
    (herror : (l.add c).1 = .error cause) :
    (l.add c).2.solver.equations = l.solver.equations := by
  obtain ⟨s, hrest, ⟨rfl, _⟩ | ⟨_, reason, hadd⟩⟩ := add_of_error herror
  · rw [hrest]
  · rw [hrest]
    exact h.equations_addAll_of_error hadd

/-- The first equation of the constraint is accepted, so a refusal has to take it back. -/
def Enters (l : Layout K) (c : Constraint K) : Prop :=
  l.unmanaged? c = none ∧ ∃ e es key, c.equations = e :: es ∧ (l.solver.add e).result = .ok key

theorem value_add_of_error
    (h : l.solver.WellFormed)
    (herror : (l.add c).1 = .error cause)
    (hfirst : ¬ l.Enters c)
    (v : Variable) :
    (l.add c).2.value v = l.value v := by
  obtain ⟨s, hrest, ⟨rfl, _⟩ | ⟨hmanaged, reason, hadd⟩⟩ := add_of_error herror
  · rw [hrest]
  · rw [hrest]
    cases hes : c.equations with
    | nil =>
        rw [hes] at hadd
        cases hadd
    | cons e es =>
        rw [hes, Solver.addAll] at hadd
        cases hresult : (l.solver.add e).result with
        | ok key => exact absurd ⟨hmanaged, e, es, key, hes, hresult⟩ hfirst
        | error cause =>
            rw [hresult] at hadd
            cases hadd
            exact h.value_add_of_error hresult v

/-- A constraint of one item is refused with its first equation, if at all. -/
theorem not_enters_of_length_le
    (herror : (l.add c).1 = .error cause)
    (hitems : c.items.length ≤ 1) :
    ¬ l.Enters c := by
  rintro ⟨hmanaged, e, es, key, hes, hresult⟩
  have hlength : (e :: es).length ≤ 1 := by
    rw [← hes, Constraint.equations, List.length_map]
    exact hitems
  have hnil : es = [] := List.eq_nil_of_length_eq_zero (by simpa using hlength)
  obtain ⟨s, _, ⟨_, hforeign⟩ | ⟨_, reason, hadd⟩⟩ := add_of_error herror
  · exact hforeign hmanaged
  · rw [hes, hnil, Solver.addAll, hresult] at hadd
    cases hadd

theorem needsSize_fst
    (l : Layout K) (e : Entity) (axis : Axis) :
    (l.needsSize e axis).1 = (l.isManaged e && (l.necessity.needsSize e axis).1) := by
  unfold needsSize
  cases l.isManaged e <;> rfl

end Layout

namespace Session

variable {K : Type} [Scalar K] {h : Handle} {l : Layout K} {c : Constraint K}
  {cause : LayoutError K}

/--
When a constraint is refused, nothing of the layout has changed but its solver, so whatever is
asked about entities, constraints, pins and sizes has the answer that it had.  The same equations
are installed, under the same keys and in the same order.  And all values are as before, unless the
constraint has several items and an equation was accepted before another one was refused.
-/
theorem refused_leaves_layout
    (events : List (Event K))
    (hl : ((empty : Session K).run events).layout? h = some l)
    (herror : (l.add c).1 = .error cause) :
    (l.add c).2 = { l with solver := (l.add c).2.solver } ∧
      (∀ e axis, ((l.add c).2.needsSize e axis).1 = (l.needsSize e axis).1) ∧
      (l.add c).2.solver.equations = l.solver.equations ∧
      (c.items.length ≤ 1 ∨ ¬ l.Enters c → ∀ v, (l.add c).2.value v = l.value v) := by
  have hwell : l.solver.WellFormed :=
    all_of_lasting Solver.lasting_wellFormed Solver.wellFormed_new events h l hl
  obtain ⟨s, hrest, _⟩ := Layout.add_of_error herror
  refine ⟨by rw [hrest], fun e axis => ?_, Layout.equations_add_of_error hwell herror,
    fun hitems v => Layout.value_add_of_error hwell herror ?_ v⟩
  · rw [hrest, Layout.needsSize_fst, Layout.needsSize_fst]
    rfl
  · exact hitems.elim (Layout.not_enters_of_length_le herror) id

/--
Over the rationals, taking back what was accepted restores every value that is the same at all
optima of the installed equations, provided that before and after the refusal the solver has
reached an optimum.
-/
theorem refused_keeps_determined
    {events : List (Event Rat)} {l : Layout Rat} {c : Constraint Rat} {cause : LayoutError Rat}
    {v : Variable}
    (hl : ((empty : Session Rat).run events).layout? h = some l)
    (herror : (l.add c).1 = .error cause)
    (hbefore : l.solver.Settled ∧ l.solver.Satisfied l.value)
    (hafter : (l.add c).2.solver.Settled ∧ (l.add c).2.solver.Satisfied (l.add c).2.value)
    (hsame : ∀ μ ν, Equation.Optimal l.solver.inForce μ → Equation.Optimal l.solver.inForce ν →
      μ v = ν v) :
    (l.add c).2.value v = l.value v := by
  have hexact : l.solver.Exact :=
    all_of_lasting Solver.lasting_exact Solver.exact_new events h l hl
  have hadded := Layout.lasts_add Solver.lasting_exact hexact c
  have hforce : (l.add c).2.solver.inForce = l.solver.inForce := by
    rw [Solver.inForce, Layout.equations_add_of_error hexact.toWellFormed herror, Solver.inForce]
  have hoptimal := (hadded.optimal_of_satisfied hafter.2 hafter.1).1
  rw [hforce] at hoptimal
  exact hsame _ _ hoptimal (hexact.optimal_of_satisfied hbefore.2 hbefore.1).1

/-- An entity whose left edge is held at 5. -/
def heldEvents : List (Event Rat) :=
  [.start {}, .ask ⟨0⟩ (.manage ⟨1⟩), .make ⟨1⟩ [⟨⟨⟨1⟩, .left⟩, .equal, none⟩] { offset := some 5 },
    .add ⟨0⟩ 0 {}]

/-- The left edge at most at zero. -/
def lowered : Constraint Rat :=
  Constraint.new ⟨2⟩ ⟨1⟩ [⟨⟨⟨1⟩, .left⟩, .atMost, none⟩]

/-- The right edge at zero, and the left edge at most there. -/
def loweredAfterRight : Constraint Rat :=
  Constraint.new ⟨2⟩ ⟨1⟩ [⟨⟨⟨1⟩, .right⟩, .equal, none⟩, ⟨⟨⟨1⟩, .left⟩, .atMost, none⟩]

/-- A single bound is refused and leaves everything as it was. -/
theorem refused_leaves_layout_lowered :
    ∃ l cause, ((empty : Session Rat).run heldEvents).layout? ⟨0⟩ = some l ∧
      (l.add lowered).1 = .error cause ∧
      (l.add lowered).2 = { l with solver := (l.add lowered).2.solver } ∧
      (∀ e axis, ((l.add lowered).2.needsSize e axis).1 = (l.needsSize e axis).1) ∧
      (l.add lowered).2.solver.equations = l.solver.equations ∧
      ∀ v, (l.add lowered).2.value v = l.value v := by
  have hrefused : (((empty : Session Rat).run heldEvents).layout? ⟨0⟩).any
      (fun l => !(l.add lowered).1.isOk) = true := by
    decide +kernel
  obtain ⟨l, hl, hnot⟩ := (Option.any_eq_true _ _).1 hrefused
  cases herror : (l.add lowered).1 with
  | ok _ =>
      rw [herror] at hnot
      cases hnot
  | error cause =>
      obtain ⟨hrest, hneeds, hequations, hvalues⟩ := refused_leaves_layout heldEvents hl herror
      exact ⟨l, cause, hl, herror, hrest, hneeds, hequations, hvalues (Or.inl (Nat.le_refl 1))⟩

/-- The right edge was at 0, and the refused constraint leaves it at 5. -/
theorem refused_moves_loweredAfterRight :
    ∃ l cause, ((empty : Session Rat).run heldEvents).layout? ⟨0⟩ = some l ∧
      (l.add loweredAfterRight).1 = .error cause ∧ l.value ⟨⟨1⟩, .right⟩ = 0 ∧
      (l.add loweredAfterRight).2.value ⟨⟨1⟩, .right⟩ = 5 := by
  have hmoves : (((empty : Session Rat).run heldEvents).layout? ⟨0⟩).any (fun l =>
      !(l.add loweredAfterRight).1.isOk && decide (l.value ⟨⟨1⟩, .right⟩ = 0) &&
        decide ((l.add loweredAfterRight).2.value ⟨⟨1⟩, .right⟩ = 5)) = true := by
    decide +kernel
  obtain ⟨l, hl, htest⟩ := (Option.any_eq_true _ _).1 hmoves
  simp only [Bool.and_eq_true, decide_eq_true_eq] at htest
  obtain ⟨⟨hnot, hbefore⟩, hafter⟩ := htest
  cases herror : (l.add loweredAfterRight).1 with
  | ok _ =>
      rw [herror] at hnot
      cases hnot
  | error cause => exact ⟨l, cause, hl, herror, hbefore, hafter⟩

end Session
end LinearLayout
