import LinearLayout.Proofs.OrderedMap.Related
import LinearLayout.Proofs.Solver.WellFormed

/-!
# Solvers that number their keys differently

Keys name installed equations and decide nothing else.  A solver whose keys are all larger by the
same number answers every call as before, once the keys in the call and in the answer are moved by
that number.

Nothing is assumed of the arithmetic.
-/

namespace LinearLayout

open Relator

variable {K : Type} [Scalar K] {n m : Nat}

/-- The key that is larger by the given number. -/
def EquationKey.shift (n : Nat) (key : EquationKey) : EquationKey :=
  ⟨n + key.number⟩

/-- The refusal with its key moved. -/
def SolverError.shift (n : Nat) : SolverError → SolverError
  | .unsatisfiable => .unsatisfiable
  | .unknownEquation key => .unknownEquation (key.shift n)

theorem EquationKey.biUnique_shift
    (n : Nat) :
    BiUnique fun k k' : EquationKey => k' = k.shift n := by
  refine ⟨?_, ?_⟩
  · rintro ⟨i⟩ ⟨j⟩ _ hi hj
    have hij : n + i = n + j := congrArg EquationKey.number (hi.symm.trans hj)
    rw [Nat.add_left_cancel hij]
  · rintro _ _ _ rfl rfl
    rfl

namespace Solver

/-- The call with its keys moved. -/
def Call.shift (n : Nat) : Call K → Call K
  | .remove key => .remove (key.shift n)
  | .contains key => .contains (key.shift n)
  | call => call

/-- The reply with its keys moved. -/
def Reply.shift (n : Nat) : Reply K → Reply K
  | .added (.ok key) => .added (.ok (key.shift n))
  | .added (.error cause) => .added (.error (cause.shift n))
  | .removed (.error cause) => .removed (.error (cause.shift n))
  | reply => reply

/-- The same solver with other installed equations and another next key. -/
def withLedger (s : Solver K) (E : OrderedMap EquationKey (InstalledEquation K)) (m : Nat) :
    Solver K :=
  { s with
    equations := E
    nextKey := m }

end Solver

/-- The same row and markers, known to a solver with another ledger. -/
def Compiled.withLedger (c : Compiled K) (E : OrderedMap EquationKey (InstalledEquation K))
    (m : Nat) : Compiled K :=
  { c with solver := c.solver.withLedger E m }

section Ledger

variable {E : OrderedMap EquationKey (InstalledEquation K)} {s s' : Solver K} {e : Equation K}
variable {c : Compiled K} {o : Option (Tableau K)} {ps : List Pass}

namespace Compiled

/-- How the row of an addition enters decides its outcome. -/
theorem Enters.add_eq
    (h : (s.compile e).Enters s' o ps) :
    s.add e = (s.compile e).conclude e s' o ps := by
  unfold Solver.add
  generalize s.compile e = c at h
  cases h with
  | solved hchoice =>
      simp only [hchoice]
      rfl
  | refused hchoice =>
      simp only [hchoice]
      rfl
  | tried hchoice =>
      simp only [hchoice]
      exact addArtificial_eq c e

theorem Enters.withLedger
    (h : c.Enters s' o ps) :
    (c.withLedger E m).Enters (s'.withLedger E m) o ps := by
  cases h with
  | solved hchoice => exact Enters.solved hchoice
  | refused hchoice => exact Enters.refused hchoice
  | tried hchoice => exact Enters.tried hchoice

end Compiled

namespace Solver

/-- Compiling does not look at the equations that are installed. -/
theorem Numbered.compile_withLedger
    (h : s.Numbered)
    (e : Equation K) :
    (s.withLedger E m).compile e = (s.compile e).withLedger E m := by
  refine (compile_patch (t := s.tableau) rfl e).trans ?_
  rw [← (h.compiles e).grows.tableau]
  rfl

end Solver

end Ledger

namespace Solver

variable {s s' : Solver K} {key : EquationKey}

/-- The second solver is the first with all its keys moved by a number. -/
structure Rekeyed (n : Nat) (s s' : Solver K) : Prop where
  ledger : s' = s.withLedger s'.equations s'.nextKey
  nextKey : s'.nextKey = n + s.nextKey
  equations : OrderedMap.Related (fun k k' => k' = k.shift n) Eq s.equations s'.equations

theorem Rekeyed.minimise
    (h : Rekeyed n s s') :
    Rekeyed n s.minimise.1 s'.minimise.1 := by
  refine ⟨?_, h.nextKey, h.equations⟩
  rw [h.ledger]
  rfl

theorem Rekeyed.add
    (h : Rekeyed n s s')
    (hs : s.Numbered)
    (e : Equation K) :
    Rekeyed n (s.add e).solver (s'.add e).solver ∧
      Reply.added (s'.add e).result = (Reply.added (s.add e).result : Reply K).shift n := by
  have hc := hs.compiles e
  obtain ⟨u, o, ps, henters, hadd⟩ := Compiled.exists_enters s e
  have hgrows := hc.grows.trans henters.grows
  have henters' := henters.withLedger (E := s'.equations) (m := s'.nextKey)
  rw [← hs.compile_withLedger, ← h.ledger] at henters'
  have hcompile : s'.compile e = (s.compile e).withLedger s'.equations s'.nextKey := by
    rw [← hs.compile_withLedger, ← h.ledger]
  rw [hadd, henters'.add_eq, hcompile]
  cases o with
  | none =>
      refine ⟨⟨rfl, ?_, ?_⟩, rfl⟩
      · exact h.nextKey.trans (congrArg (n + ·) hgrows.nextKey.symm)
      · change OrderedMap.Related _ Eq u.equations s'.equations
        rw [hgrows.equations]
        exact h.equations
  | some t =>
      have hkey : (⟨s'.nextKey⟩ : EquationKey) = EquationKey.shift n ⟨u.nextKey⟩ := by
        rw [EquationKey.shift, hgrows.nextKey, h.nextKey]
      refine ⟨Rekeyed.minimise ⟨rfl, ?_, ?_⟩, ?_⟩
      · change s'.nextKey + 1 = n + (u.nextKey + 1)
        rw [h.nextKey, hgrows.nextKey, Nat.add_assoc]
      · have hequations : OrderedMap.Related (fun k k' => k' = k.shift n) Eq u.equations
            s'.equations := by
          rw [hgrows.equations]
          exact h.equations
        exact hequations.insert (EquationKey.biUnique_shift n) hkey rfl
      · change Reply.added (.ok ⟨s'.nextKey⟩) = Reply.added (.ok (EquationKey.shift n ⟨u.nextKey⟩))
        rw [hkey]

theorem Rekeyed.remove
    (h : Rekeyed n s s')
    (key : EquationKey) :
    Rekeyed n (s.remove key).solver (s'.remove (key.shift n)).solver ∧
      Reply.removed (s'.remove (key.shift n)).result =
        (Reply.removed (s.remove key).result : Reply K).shift n := by
  rcases cases_of_rel (h.equations.get? (EquationKey.biUnique_shift n) rfl) with
    ⟨hnone, hnone'⟩ | ⟨i, _, hi, hi', rfl⟩
  · rw [remove_of_get?_eq_none hnone, remove_of_get?_eq_none hnone']
    exact ⟨h, rfl⟩
  · rw [remove_of_get? hi, remove_of_get? hi']
    refine ⟨Rekeyed.minimise ⟨?_, h.nextKey, ?_⟩, rfl⟩
    · rw [withdraw, withdraw, h.ledger]
      rfl
    · exact h.equations.erase (EquationKey.biUnique_shift n) rfl

theorem Rekeyed.value_eq
    (h : Rekeyed n s s')
    (v : Variable) :
    s'.value v = s.value v := by
  rw [h.ledger]
  rfl

theorem Rekeyed.objectiveValue_eq
    (h : Rekeyed n s s') :
    s'.objectiveValue = s.objectiveValue := by
  rw [h.ledger]
  rfl

/-- Solvers whose keys differ by a number answer alike up to that number. -/
theorem Rekeyed.answer
    (h : Rekeyed n s s')
    (hs : s.Numbered)
    (call : Call K) :
    Rekeyed n (s.answer call).2.1 (s'.answer (call.shift n)).2.1 ∧
      (s'.answer (call.shift n)).1 = (s.answer call).1.shift n := by
  cases call with
  | add e => exact h.add hs e
  | remove key => exact h.remove key
  | solve => exact ⟨h.minimise, rfl⟩
  | value v => exact ⟨h, congrArg Reply.number (h.value_eq v)⟩
  | contains key =>
      exact ⟨h, congrArg Reply.found
        (h.equations.contains (EquationKey.biUnique_shift n) rfl).symm⟩
  | size => exact ⟨h, congrArg Reply.count h.equations.size.symm⟩
  | objectiveValue => exact ⟨h, congrArg Reply.number h.objectiveValue_eq⟩

theorem Rekeyed.replies_eq
    {calls : List (Call K)}
    (h : Rekeyed n s s')
    (hs : s.WellFormed) :
    s'.replies (calls.map (Call.shift n)) = (s.replies calls).map (Reply.shift n) := by
  induction calls generalizing s s' with
  | nil =>
      rfl
  | cons call calls ih =>
      obtain ⟨hrest, hreply⟩ := h.answer hs.toNumbered call
      have htail := ih hrest (hs.answer call)
      change (s'.answer (call.shift n)).1 :: (s'.answer (call.shift n)).2.1.replies _ = _
      rw [hreply, htail]
      rfl

end Solver
end LinearLayout
