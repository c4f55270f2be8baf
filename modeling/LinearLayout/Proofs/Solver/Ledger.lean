import LinearLayout.Proofs.OrderedMap.Selections
import LinearLayout.Proofs.Solver.WellFormed

/-!
# What a solver has on record

Apart from the tableau and its symbols a solver keeps the installed equations, the next key and
its settings.  An addition that is refused leaves these alone, one that is accepted enters its
equation under the next key, and a removal strikes one equation out.

A caller can keep the same record from the calls and the replies alone: what was accepted, under
the key that was returned for it, without what was removed since.
-/

namespace LinearLayout
namespace Solver

variable {K : Type} [Scalar K] {s : Solver K} {key : EquationKey} {calls : List (Call K)}

/-- The second solver has one more equation than the first, under the key that was next. -/
structure Enters (s : Solver K) (e : Equation K) (s' : Solver K) : Prop where
  settings : s'.settings = s.settings
  nextKey : s'.nextKey = s.nextKey + 1
  equations : ∃ markers, s'.equations = s.equations.insert ⟨s.nextKey⟩ ⟨e, markers⟩

theorem Numbered.extends_or_enters
    (h : s.Numbered)
    (e : Equation K) :
    ((s.add e).result = .error .unsatisfiable ∧ s.Extends (s.add e).solver) ∨
      ((s.add e).result = .ok ⟨s.nextKey⟩ ∧ s.Enters e (s.add e).solver) := by
  have hc := h.compiles e
  obtain ⟨s', o, ps, henters, hadd⟩ := Compiled.exists_enters s e
  have hextends := hc.grows.trans henters.grows
  rw [hadd]
  cases o with
  | none => exact Or.inl ⟨rfl, hextends⟩
  | some t =>
      refine Or.inr ⟨?_, hextends.settings, ?_, (s.compile e).markers, ?_⟩
      · rw [← hextends.nextKey]
        rfl
      · rw [← hextends.nextKey]
        rfl
      · rw [← hextends.nextKey, ← hextends.equations]
        rfl

theorem equations_remove
    (s : Solver K) (key : EquationKey) :
    (s.remove key).solver.equations = s.equations.erase key := by
  cases hk : s.equations.get? key with
  | none => rw [remove_of_get?_eq_none hk, OrderedMap.erase_of_get?_eq_none hk]
  | some i =>
      rw [remove_of_get? hk]
      rfl

theorem nextKey_remove
    (s : Solver K) (key : EquationKey) :
    (s.remove key).solver.nextKey = s.nextKey := by
  cases hk : s.equations.get? key with
  | none => rw [remove_of_get?_eq_none hk]
  | some i =>
      rw [remove_of_get? hk]
      rfl

theorem settings_remove
    (s : Solver K) (key : EquationKey) :
    (s.remove key).solver.settings = s.settings := by
  cases hk : s.equations.get? key with
  | none => rw [remove_of_get?_eq_none hk]
  | some i =>
      rw [remove_of_get? hk]
      rfl

section Record

variable {entries : List (EquationKey × Equation K)}

/-- The installed equations under their keys, the oldest first. -/
def onRecord (s : Solver K) : List (EquationKey × Equation K) :=
  s.equations.entries.map fun entry => (entry.1, entry.2.equation)

/-- An accepted equation is noted under the key that was returned for it, a removed one deleted. -/
def revise (entries : List (EquationKey × Equation K)) :
    Call K → Reply K → List (EquationKey × Equation K)
  | .add e, .added (.ok key) => entries ++ [(key, e)]
  | .remove key, _ => entries.filter fun entry => entry.1 ≠ key
  | _, _ => entries

/-- The equations that were accepted and not removed since, as calls and replies tell of them. -/
def standing (s : Solver K) (calls : List (Call K)) : List (EquationKey × Equation K) :=
  (calls.zip (s.replies calls)).foldl (fun entries p => revise entries p.1 p.2) []

theorem Extends.onRecord_eq
    {s' : Solver K}
    (h : s.Extends s') :
    s'.onRecord = s.onRecord := by
  rw [onRecord, onRecord, h.equations]

/-- A new equation is the last on record. -/
theorem WellFormed.onRecord_of_enters
    {s' : Solver K} {e : Equation K}
    (h : s.WellFormed)
    (henters : s.Enters e s') :
    s'.onRecord = s.onRecord ++ [(⟨s.nextKey⟩, e)] := by
  obtain ⟨markers, hequations⟩ := henters.equations
  have hlast := OrderedMap.entries_insert_of_get?_eq_none
    (⟨e, markers⟩ : InstalledEquation K) h.get?_nextKey
  rw [onRecord, hequations, hlast, List.map_append]
  rfl

theorem onRecord_remove
    (s : Solver K) (key : EquationKey) :
    (s.remove key).solver.onRecord = s.onRecord.filter fun entry => entry.1 ≠ key := by
  rw [onRecord, onRecord, equations_remove, OrderedMap.erase_eq_filter, List.filter_map]
  rfl

/-- What a call does to the record can be told from the reply. -/
theorem WellFormed.onRecord_answer
    (h : s.WellFormed)
    (call : Call K) :
    (s.answer call).2.1.onRecord = revise s.onRecord call (s.answer call).1 := by
  cases call with
  | add e =>
      rcases h.toNumbered.extends_or_enters e with ⟨hresult, hextends⟩ | ⟨hresult, henters⟩
      · have hreply : (s.answer (.add e)).1 = .added (.error .unsatisfiable) :=
          congrArg Reply.added hresult
        rw [hreply]
        exact hextends.onRecord_eq
      · have hreply : (s.answer (.add e)).1 = .added (.ok ⟨s.nextKey⟩) :=
          congrArg Reply.added hresult
        rw [hreply]
        exact h.onRecord_of_enters henters
  | remove key => exact onRecord_remove s key
  | solve => rfl
  | value v => rfl
  | contains key => rfl
  | size => rfl
  | objectiveValue => rfl

theorem WellFormed.onRecord_run
    (h : s.WellFormed)
    (hentries : s.onRecord = entries)
    (calls : List (Call K)) :
    (s.run calls).onRecord =
      (calls.zip (s.replies calls)).foldl (fun entries p => revise entries p.1 p.2) entries := by
  induction calls generalizing s entries with
  | nil =>
      exact hentries
  | cons call calls ih =>
      subst hentries
      exact ih (h.answer call) (h.onRecord_answer call)

/-- Whatever the arithmetic, a solver has on record what was accepted and not removed since. -/
theorem onRecord_eq_standing
    (settings : SolverSettings) (calls : List (Call K)) :
    ((new settings).run calls).onRecord = (new settings).standing calls :=
  (wellFormed_new settings).onRecord_run rfl calls

end Record

section Runs

theorem Numbered.settings_add
    (h : s.Numbered)
    (e : Equation K) :
    (s.add e).solver.settings = s.settings := by
  rcases h.extends_or_enters e with ⟨_, hextends⟩ | ⟨_, henters⟩
  · exact hextends.settings
  · exact henters.settings

theorem WellFormed.settings_run
    (h : s.WellFormed)
    (calls : List (Call K)) :
    (s.run calls).settings = s.settings := by
  have hrun : (s.run calls).WellFormed ∧ (s.run calls).settings = s.settings :=
    run_induction (P := fun u => u.WellFormed ∧ u.settings = s.settings)
      (fun u e ⟨hu, hsettings⟩ => ⟨hu.add e, (hu.settings_add e).trans hsettings⟩)
      (fun u key ⟨hu, hsettings⟩ => ⟨hu.remove key, (settings_remove u key).trans hsettings⟩)
      (fun u ⟨hu, hsettings⟩ => ⟨hu.minimise, hsettings⟩) ⟨h, rfl⟩ calls
  exact hrun.2

/-- No equation is installed under a key below the given number, and none will be. -/
def Passed (n : Nat) (s : Solver K) : Prop :=
  n ≤ s.nextKey ∧ ∀ k i, s.equations.get? k = some i → n ≤ k.number

variable {n : Nat}

theorem Passed.add
    (hpassed : s.Passed n)
    (h : s.Numbered)
    (e : Equation K) :
    (s.add e).solver.Passed n := by
  rcases h.extends_or_enters e with ⟨_, hextends⟩ | ⟨_, henters⟩
  · rw [Passed, hextends.nextKey, hextends.equations]
    exact hpassed
  · obtain ⟨markers, hequations⟩ := henters.equations
    rw [Passed, henters.nextKey, hequations]
    refine ⟨Nat.le_succ_of_le hpassed.1, fun k i hk => ?_⟩
    rw [OrderedMap.get?_insert] at hk
    split at hk
    · next hkey => exact hkey ▸ hpassed.1
    · exact hpassed.2 k i hk

theorem Passed.remove
    (hpassed : s.Passed n)
    (key : EquationKey) :
    (s.remove key).solver.Passed n := by
  rw [Passed, nextKey_remove, equations_remove]
  refine ⟨hpassed.1, fun k i hk => ?_⟩
  rw [OrderedMap.get?_erase] at hk
  split at hk
  · cases hk
  · exact hpassed.2 k i hk

theorem Passed.run
    (hpassed : s.Passed n)
    (h : s.WellFormed)
    (calls : List (Call K)) :
    (s.run calls).Passed n := by
  have hrun : (s.run calls).WellFormed ∧ (s.run calls).Passed n :=
    run_induction (P := fun u => u.WellFormed ∧ u.Passed n)
      (fun _ e ⟨hu, hpassed⟩ => ⟨hu.add e, hpassed.add hu.toNumbered e⟩)
      (fun _ key ⟨hu, hpassed⟩ => ⟨hu.remove key, hpassed.remove key⟩)
      (fun _ ⟨hu, hpassed⟩ => ⟨hu.minimise, hpassed⟩) ⟨h, hpassed⟩ calls
  exact hrun.2

theorem Passed.contains_eq_false
    (hpassed : s.Passed n)
    (hkey : key.number < n) :
    s.contains key = false := by
  rw [contains, OrderedMap.contains]
  cases hk : s.equations.get? key with
  | none => rfl
  | some i => exact absurd (hpassed.2 key i hk) (Nat.not_le.2 hkey)

end Runs

end Solver
end LinearLayout
