import LinearLayout.Proofs.Solver.Ledger
import LinearLayout.Proofs.Solver.Mirror
import LinearLayout.Proofs.Solver.Rejection
import LinearLayout.Proofs.Solver.Rekeyed

/-!
# Solvers that have become empty

Where no equation is installed, every assignment is a solution of the tableau.  A row would exclude
some, so there is none but the objective row, and that one measures nothing.  What is left of the
past are symbols in the table of variables and the next key.  The symbols correspond to nothing in
a new solver, and the keys differ by their number, so the past cannot be noticed.
-/

namespace LinearLayout
namespace Solver

section Keys

variable {K : Type} [Scalar K] {s : Solver K} {key : EquationKey} {calls : List (Call K)}

/-- An accepted equation uses up one key, a refused one none. -/
theorem Numbered.nextKey_add
    (h : s.Numbered)
    (e : Equation K) :
    (s.add e).solver.nextKey = s.nextKey + (s.acceptedBy (.add e)).length := by
  rcases h.extends_or_enters e with ⟨hresult, hextends⟩ | ⟨hresult, henters⟩
  · rw [acceptedBy, hresult, hextends.nextKey]
    rfl
  · rw [acceptedBy, hresult, henters.nextKey]
    rfl

/-- The next key counts the equations that were accepted. -/
theorem WellFormed.nextKey_run
    (h : s.WellFormed) :
    (s.run calls).nextKey = s.nextKey + (s.accepted calls).length := by
  induction calls generalizing s with
  | nil =>
      rfl
  | cons call calls ih =>
      have hfirst : (s.answer call).2.1.nextKey = s.nextKey + (s.acceptedBy call).length := by
        cases call with
        | add e => exact h.toNumbered.nextKey_add e
        | remove key => exact nextKey_remove s key
        | solve => rfl
        | value v => rfl
        | contains key => rfl
        | size => rfl
        | objectiveValue => rfl
      rw [accepted, List.length_append, ← Nat.add_assoc, ← hfirst]
      exact ih (h.answer call)

/-- Solvers that mirror each other give the same replies. -/
theorem Mirrors.replies_all_eq
    {R : Symbol → Symbol → Prop} {s' : Solver K}
    (h : Mirrors R s s')
    (hs : s.WellFormed)
    (hs' : s'.WellFormed)
    (calls : List (Call K)) :
    s.replies calls = s'.replies calls := by
  induction calls generalizing R s s' with
  | nil =>
      rfl
  | cons call calls ih =>
      obtain ⟨Q, hQ, hreply⟩ := h.answer hs.toNumbered hs'.toNumbered call
      have htail := ih hQ (hs.answer call) (hs'.answer call)
      change (s.answer call).1 :: (s.answer call).2.1.replies calls = _
      rw [hreply, htail]
      rfl

end Keys

section Empty

variable {s : Solver Rat} {b : Symbol} {r : Row Rat}

/-- No equation is installed. -/
def Emptied (s : Solver Rat) : Prop :=
  ∀ k, s.equations.get? k = none

theorem emptied_of_isEmpty
    (h : s.isEmpty = true) :
    s.Emptied := by
  intro k
  rw [isEmpty, OrderedMap.isEmpty, List.isEmpty_iff] at h
  rw [OrderedMap.get?, h]
  rfl

theorem Emptied.penalty_eq_zero
    (h : s.Emptied)
    (σ : Assignment) :
    s.penalty σ = 0 := by
  have hentries : s.equations.entries = [] :=
    List.eq_nil_iff_forall_not_mem.2 fun entry hentry => by
      have hk := OrderedMap.get?_eq_some_iff.2 hentry
      rw [h] at hk
      cases hk
  rw [penalty, OrderedMap.total, hentries]
  rfl

theorem Exact.holds_of_emptied
    (h : s.Exact)
    (hempty : s.Emptied)
    (σ : Assignment) :
    s.tableau.Holds σ := by
  refine (h.holds_iff σ).2 fun k i hk => ?_
  rw [hempty] at hk
  cases hk

/-- A row of another symbol would fix the value of that symbol. -/
theorem Exact.eq_objective_of_emptied
    (h : s.Exact)
    (hempty : s.Emptied)
    (hb : s.tableau.row? b = some r) :
    b = .objective := by
  refine (h.within b r hb).1.2 ?_
  by_contra hobjective
  rw [Bool.not_eq_true] at hobjective
  have hzero := h.holds_of_emptied hempty 0 b r hb hobjective
  have hone := h.holds_of_emptied hempty (Function.update 0 b 1) b r hb hobjective
  rw [Row.eval_update_of_not_mem (h.consistent.not_mem_of_row? hb hb), ← hzero,
    Function.update_self] at hone
  exact one_ne_zero hone

/-- The objective measures nothing. -/
theorem Exact.row?_objective_of_emptied
    (h : s.Exact)
    (hempty : s.Emptied) :
    s.tableau.row? .objective = some (Row.ofConstant 0) := by
  obtain ⟨r, hr, hmeasure⟩ := h.measures
  have heval : ∀ σ, r.eval σ = 0 := fun σ =>
    (hmeasure σ (h.holds_of_emptied hempty σ)).trans (hempty.penalty_eq_zero σ)
  have hconstant : r.constant = 0 := Row.eval_zero.symm.trans (heval 0)
  have hsymbols : r.symbols = [] := by
    refine List.eq_nil_iff_forall_not_mem.2 fun x => ?_
    refine (h.reduced _ r hr).not_mem_of_coefficient ?_
    rw [Row.coefficient_eq_eval, heval, heval, sub_zero]
  have hcells : r.cells = ∅ := OrderedMap.ext (List.map_eq_nil_iff.1 hsymbols)
  rw [hr]
  exact congrArg some (congrArg₂ Row.mk hconstant hcells)

theorem Exact.rows_of_emptied
    (h : s.Exact)
    (hempty : s.Emptied) :
    s.tableau.rows = (new (K := Rat) s.settings).tableau.rows := by
  have hobjective := h.row?_objective_of_emptied hempty
  have hmem : Symbol.objective ∈ s.tableau.rows.keys :=
    OrderedMap.mem_keys_iff.2 ⟨_, hobjective⟩
  have hall : ∀ b ∈ s.tableau.rows.keys, b = .objective := by
    intro b hb
    obtain ⟨r, hr⟩ := OrderedMap.mem_keys_iff.1 hb
    exact h.eq_objective_of_emptied hempty hr
  have hkeys : s.tableau.rows.keys = [.objective] := by
    refine List.perm_singleton.1 ((List.perm_ext_iff_of_nodup s.tableau.rows.nodup_keys
      (by simp)).2 fun b => ?_)
    rw [List.mem_singleton]
    exact ⟨hall b, fun hb => hb ▸ hmem⟩
  refine OrderedMap.ext_of_get? hkeys fun b => ?_
  by_cases hb : b = .objective
  · rw [hb]
    exact hobjective
  · have hnone : s.tableau.rows.get? b = none :=
      OrderedMap.get?_eq_none_iff.2 fun hmem => hb (hall b hmem)
    rw [hnone]
    exact (OrderedMap.get?_eq_none_iff.2 fun hmem => hb (List.mem_singleton.1 hmem)).symm

theorem Exact.value_of_emptied
    (h : s.Exact)
    (hempty : s.Emptied)
    (v : Variable) :
    s.value v = 0 := by
  unfold value
  cases hx : s.symbols.get? v with
  | none => rfl
  | some x =>
      rw [Option.bind_some]
      cases hr : s.tableau.row? x with
      | none => rfl
      | some r =>
          have hfree := h.isFree v x hx
          rw [h.eq_objective_of_emptied hempty hr] at hfree
          cases hfree

end Empty

section Forgetting

variable {s : Solver Rat}

/-- A new solver whose first key is given. -/
def newAt (settings : SolverSettings) (n : Nat) : Solver Rat :=
  (new settings).withLedger ∅ n

theorem wellFormed_newAt
    (settings : SolverSettings) (n : Nat) :
    (newAt settings n).WellFormed :=
  have h := wellFormed_new (K := Rat) settings
  ⟨⟨h.consistent, h.within, h.isFree, h.index_lt, h.injective, h.positive⟩,
    (fun _ _ hk => by cases hk), h.known, h.fits, h.nodup, h.marker_lt, h.disjoint⟩

/-- An emptied solver is a new one that knows some variables already. -/
theorem Exact.mirrors_of_emptied
    (h : s.Exact)
    (hempty : s.Emptied) :
    Mirrors (fun i j => i = .objective ∧ j = .objective) (newAt s.settings s.nextKey) s := by
  have hnew := mirrors_new (K := Rat) s.settings
  have hequations : s.equations = ∅ := by
    refine OrderedMap.ext_of_get? (List.eq_nil_iff_forall_not_mem.2 fun k hk => ?_) hempty
    obtain ⟨i, hi⟩ := OrderedMap.mem_keys_iff.1 hk
    rw [hempty] at hi
    cases hi
  refine ⟨hnew.matching, rfl, rfl, ⟨?_, ?_⟩, ?_, fun v x hv => ?_, fun v y hv _ x hxy => ?_,
    fun x y hxy => ?_⟩
  · rw [h.rows_of_emptied hempty]
    exact hnew.tableau.rows
  · rintro x y ⟨rfl, rfl⟩
    have hcolumn : s.tableau.column .objective = [] := by
      refine List.eq_nil_iff_forall_not_mem.2 fun b hb => ?_
      obtain ⟨r, hr, hmem⟩ := (h.consistent.mem_column_iff _ b).1 hb
      rw [h.eq_objective_of_emptied hempty hr, h.row?_objective_of_emptied hempty] at hr
      cases hr
      cases hmem
    change List.Forall₂ _ _ (s.tableau.column .objective)
    rw [hcolumn]
    exact List.Forall₂.nil
  · rw [hequations]
    exact OrderedMap.related_empty
  · cases hv
  · have hfree := h.isFree v y hv
    rw [hxy.2] at hfree
    cases hfree
  · rw [hxy.1, hxy.2]
    exact ⟨Nat.one_pos, h.positive⟩

/-- An emptied solver answers as a new one does, up to the number of its next key. -/
theorem Exact.replies_of_emptied
    (h : s.Exact)
    (hempty : s.Emptied)
    (calls : List (Call Rat)) :
    s.replies (calls.map (Call.shift s.nextKey)) =
      ((new s.settings).replies calls).map (Reply.shift s.nextKey) := by
  have hrekeyed : Rekeyed s.nextKey (new s.settings) (newAt s.settings s.nextKey) :=
    ⟨rfl, rfl, OrderedMap.related_empty⟩
  rw [← hrekeyed.replies_eq (wellFormed_new s.settings)]
  exact ((h.mirrors_of_emptied hempty).replies_all_eq (wellFormed_newAt s.settings s.nextKey)
    h.toWellFormed _).symm

/--
A run that ends with no equation installed has left nothing in the tableau but an objective that
is zero, and all values are zero.  From then on the solver replies as a new one does, with keys
that go on from the last one; the keys of the past stay unknown.
-/
theorem emptied_run_forgets
    (settings : SolverSettings) (calls : List (Call Rat))
    (hempty : ((new settings).run calls).isEmpty = true) :
    let s := (new settings).run calls
    let n := ((new settings).accepted calls).length
    s.tableau.rows.entries = [(.objective, Row.ofConstant 0)] ∧
      (∀ v, s.value v = 0) ∧
      (∀ more, s.replies (more.map (Call.shift n)) =
        ((new settings).replies more).map (Reply.shift n)) ∧
      ∀ more key, key.number < n → (s.run more).contains key = false := by
  have hwellFormed := wellFormed_new (K := Rat) settings
  have h := exact_run settings calls
  have hempty := emptied_of_isEmpty hempty
  have hsettings := hwellFormed.settings_run calls
  have hkeys : ((new settings).run calls).nextKey = ((new settings).accepted calls).length :=
    hwellFormed.nextKey_run.trans (Nat.zero_add _)
  have hreplies := h.replies_of_emptied hempty
  rw [hsettings, hkeys] at hreplies
  refine ⟨congrArg OrderedMap.entries (h.rows_of_emptied hempty), h.value_of_emptied hempty,
    hreplies, fun more key hkey => ?_⟩
  have hpassed : ((new settings).run calls).Passed ((new settings).accepted calls).length :=
    ⟨hkeys.ge, fun k i hk => absurd (hempty k) (by simp [hk])⟩
  exact (hpassed.run h.toWellFormed more).contains_eq_false hkey

/-- Two bounds, a preference between them and a refused value, removed in another order. -/
def emptiedCalls : List (Call Rat) :=
  [.add ⟨[⟨1, sampleVariable⟩], .atLeast, 5, .required⟩,
    .add ⟨[⟨2, sampleVariable⟩], .equal, 12, (Priority.preferred 3).strength⟩,
    .add (.pin sampleVariable 4),
    .add ⟨[⟨1, sampleVariable⟩], .atMost, 9, .required⟩,
    .remove ⟨0⟩, .remove ⟨2⟩, .remove ⟨1⟩]

/-- The refused equation has used up no key, so the keys go on from the third. -/
theorem emptied_run_forgets_bounds :
    (((new {}).run emptiedCalls).isEmpty = true ∧ ((new {}).accepted emptiedCalls).length = 3) ∧
      let s := (new {}).run emptiedCalls
      let n := ((new {}).accepted emptiedCalls).length
      s.tableau.rows.entries = [(.objective, Row.ofConstant 0)] ∧
        (∀ v, s.value v = 0) ∧
        (∀ more, s.replies (more.map (Call.shift n)) =
          ((new {}).replies more).map (Reply.shift n)) ∧
        ∀ more key, key.number < n → (s.run more).contains key = false :=
  ⟨⟨by decide +kernel, by decide +kernel⟩, emptied_run_forgets {} emptiedCalls (by decide +kernel)⟩

end Forgetting

end Solver
end LinearLayout
