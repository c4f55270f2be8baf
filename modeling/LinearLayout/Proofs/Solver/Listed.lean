import LinearLayout.Proofs.Solver.WellFormed
import LinearLayout.Proofs.Tableau.Listed

/-!
# Runs with an index kept by reports

A solver that never looks at its rows again to find out which columns they belong to, but relies
on what adding to a cell reports, gives the same replies as one that does, and has the same rows
and columns after every run.  What carries the runs is that the tableau is consistent whenever it
is edited.

Nothing is assumed of the arithmetic.
-/

namespace LinearLayout

variable {K : Type} [Scalar K]

/-- The same row and markers, known to a solver with another tableau. -/
def Compiled.withTableau (c : Compiled K) (t : Tableau K) : Compiled K :=
  { c with solver := c.solver.withTableau t }

namespace Solver

section Listed

/-- Minimises the sum of all weighted violations, keeping the index by reports. -/
def minimiseListed (s : Solver K) : Solver K × Pass :=
  let (tableau, ending) := s.tableau.minimiseListed .objective s.furtherPivots
  (s.withTableau tableau, ⟨.preference, ending⟩)

/-- Minimises the violations once more, keeping the index by reports. -/
def solveListed (s : Solver K) : Outcome K Unit :=
  let (s, pass) := s.minimiseListed
  ⟨.ok (), s, [pass]⟩

/-- Puts an equation in force whose row is in the tableau, keeping the index by reports. -/
def enforceListed (s : Solver K) (e : Equation K) (markers : Markers) (tableau : Tableau K)
    (passes : List Pass) : Outcome K EquationKey :=
  let charged := tableau.chargeAllListed markers (e.strength.weight?.getD 0)
  let (later, pass) := (s.register e markers charged).minimiseListed
  ⟨.ok ⟨s.nextKey⟩, later, passes ++ [pass]⟩

end Listed

end Solver

namespace Compiled

/-- The first phase of a compiled row, with the index kept by reports. -/
def attemptListed (c : Compiled K) : Option (Tableau K) × Ending :=
  c.solver.tableau.tryAcceptListed c.row c.artificial c.goal c.solver.furtherPivots

/-- The outcome of an addition, once it is known how its row enters, with an index so kept. -/
def concludeListed (c : Compiled K) (e : Equation K) (s : Solver K) (o : Option (Tableau K))
    (ps : List Pass) : Outcome K EquationKey :=
  match o with
  | none => ⟨.error .unsatisfiable, s, ps⟩
  | some t => s.enforceListed e c.markers t ps

end Compiled

namespace Solver

section Listed

/-- Adds an equation, keeping the index by reports. -/
def addListed (s : Solver K) (e : Equation K) : Outcome K EquationKey :=
  let c := s.compile e
  match c.solver.tableau.chooseEntry c.row with
  | .solveFor subject =>
    c.concludeListed e c.solver (some (c.solver.tableau.installListed subject c.row)) []
  | .artificial =>
    c.concludeListed e c.prepared c.attemptListed.1 [⟨.feasibility, c.attemptListed.2⟩]
  | .conflict => c.concludeListed e c.solver none []

/-- Removes an installed equation, keeping the index by reports. -/
def removeListed (s : Solver K) (key : EquationKey) : Outcome K Unit :=
  match s.equations.get? key with
  | none => ⟨.error (.unknownEquation key), s, []⟩
  | some i =>
    let weight := i.equation.strength.weight?.getD 0
    let retracted := (s.withdraw key i).withTableau (s.tableau.retractListed i.markers weight)
    let (s, pass) := retracted.minimiseListed
    ⟨.ok (), s, [pass]⟩

/-- The answer to a call by a solver that keeps its index by reports. -/
def answerListed (s : Solver K) : Call K → Reply K × Solver K × List Pass
  | .add e =>
    let o := s.addListed e
    (.added o.result, o.solver, o.passes)
  | .remove key =>
    let o := s.removeListed key
    (.removed o.result, o.solver, o.passes)
  | .solve =>
    let o := s.solveListed
    (.solved, o.solver, o.passes)
  | call => s.answer call

/-- The solver after a list of calls if its index is kept by reports. -/
def runListed (s : Solver K) (calls : List (Call K)) : Solver K :=
  calls.foldl (fun s call => (s.answerListed call).2.1) s

/-- The answers to a list of calls by a solver that keeps its index by reports. -/
def repliesListed (s : Solver K) : List (Call K) → List (Reply K)
  | [] => []
  | call :: calls =>
    let (reply, s, _) := s.answerListed call
    reply :: repliesListed s calls

end Listed

/-- The same solvers, however the columns of their tableaux are stored. -/
def Same (s u : Solver K) : Prop :=
  ∃ t, s = u.withTableau t ∧ t.Same u.tableau

end Solver

/-- The same result by the same minimisations, and the same solver after it. -/
structure Outcome.Same {α : Type} (o p : Outcome K α) : Prop where
  result : o.result = p.result
  solver : o.solver.Same p.solver
  passes : o.passes = p.passes

namespace Solver

variable {s u : Solver K} {t v w : Tableau K} {e : Equation K} {c : Compiled K}

theorem Numbered.compile_withTableau
    (h : s.Numbered)
    (ht : t.rows = s.tableau.rows)
    (e : Equation K) :
    (s.withTableau t).compile e = (s.compile e).withTableau t := by
  have hgrows := (h.compiles e).grows
  refine (compile_patch (E := s.equations) (m := s.nextKey) ht e).trans ?_
  rw [← hgrows.equations, ← hgrows.nextKey]
  rfl

section Calls

theorem Same.minimiseListed
    (h : s.Same u)
    (hu : u.tableau.Consistent) :
    s.minimiseListed.1.Same u.minimise.1 ∧ s.minimiseListed.2 = u.minimise.2 := by
  obtain ⟨t, rfl, ht⟩ := h
  obtain ⟨hsame, hending⟩ := ht.minimiseListed hu .objective u.furtherPivots
  exact ⟨⟨_, rfl, hsame⟩, congrArg (Pass.mk .preference) hending⟩

theorem same_enforceListed
    (h : v.Same w)
    (hw : w.Consistent)
    (markers : Markers) (ps : List Pass) :
    ((u.withTableau t).enforceListed e markers v ps).Same (u.enforce e markers w ps) := by
  have hcharged := h.chargeAllListed hw markers (e.strength.weight?.getD 0)
  obtain ⟨hsame, hpass⟩ := Same.minimiseListed (u := u.register e markers
    (w.chargeAll markers (e.strength.weight?.getD 0))) ⟨_, rfl, hcharged⟩ (hw.chargeAll markers _)
  exact ⟨rfl, hsame, congrArg (ps ++ [·]) hpass⟩

theorem same_concludeListed
    {o o' : Option (Tableau K)}
    (s' : Solver K)
    (ht : t.Same s'.tableau)
    (ho : Option.Rel Tableau.Same o o')
    (hconsistent : ∀ w, o' = some w → w.Consistent)
    (ps : List Pass) :
    ((c.withTableau t).concludeListed e (s'.withTableau t) o ps).Same (c.conclude e s' o' ps) := by
  cases ho with
  | none => exact ⟨rfl, ⟨t, rfl, ht⟩, rfl⟩
  | some hvw => exact same_enforceListed hvw (hconsistent _ rfl) c.markers ps

theorem Same.addListed
    (h : s.Same u)
    (hu : u.Numbered)
    (e : Equation K) :
    (s.addListed e).Same (u.add e) := by
  obtain ⟨t, rfl, ht⟩ := h
  have hc := hu.compiles e
  have hcompile := hu.compile_withTableau ht.1 e
  rw [← hc.grows.tableau] at ht
  obtain ⟨s', o', ps, henters, hadd⟩ := Compiled.exists_enters u e
  have hconsistent : ∀ w, o' = some w → w.Consistent := by
    rintro w rfl
    exact (henters.consistent hc).1
  rw [hadd, Solver.addListed, hcompile]
  generalize u.compile e = c at hc ht henters
  have hchoose : (c.withTableau t).solver.tableau.chooseEntry (c.withTableau t).row =
      c.solver.tableau.chooseEntry c.row := ht.chooseEntry_eq c.row
  rw [hchoose]
  cases henters with
  | @solved subject hchoice =>
      rw [hchoice]
      exact same_concludeListed c.solver ht
        (.some (ht.installListed hc.numbered.consistent subject c.row)) hconsistent []
  | refused hchoice =>
      rw [hchoice]
      exact same_concludeListed c.solver ht .none hconsistent []
  | tried hchoice =>
      obtain ⟨haccepted, hending⟩ := ht.tryAcceptListed hc.numbered.consistent
        (Compiled.firstPhase hc) c.solver.furtherPivots
      have hattempt : (c.withTableau t).attemptListed.2 = c.attempt.2 := hending
      rw [hchoice]
      dsimp only
      rw [hattempt]
      exact same_concludeListed c.prepared ht haccepted hconsistent _

theorem Same.removeListed
    (h : s.Same u)
    (hu : u.WellFormed)
    (key : EquationKey) :
    (s.removeListed key).Same (u.remove key) := by
  obtain ⟨t, rfl, ht⟩ := h
  have hequations : (u.withTableau t).equations = u.equations := rfl
  unfold Solver.removeListed
  rw [hequations]
  cases hk : u.equations.get? key with
  | none =>
      rw [remove_of_get?_eq_none hk]
      exact ⟨rfl, ⟨t, rfl, ht⟩, rfl⟩
  | some i =>
      rw [remove_of_get? hk]
      have hretracted := ht.retractListed hu.consistent i.markers
        (i.equation.strength.weight?.getD 0)
      obtain ⟨hsame, hpass⟩ := Same.minimiseListed (u := u.withdraw key i) ⟨_, rfl, hretracted⟩
        (hu.withdraw hk).consistent
      exact ⟨rfl, hsame, congrArg ([·]) hpass⟩

/-- Questions are answered from the rows and from what is on record. -/
theorem Same.answerListed
    (h : s.Same u)
    (hu : u.WellFormed)
    (call : Call K) :
    (s.answerListed call).1 = (u.answer call).1 ∧
      (s.answerListed call).2.1.Same (u.answer call).2.1 := by
  cases call with
  | add e =>
      have hadd := h.addListed hu.toNumbered e
      exact ⟨congrArg Reply.added hadd.result, hadd.solver⟩
  | remove key =>
      have hremove := h.removeListed hu key
      exact ⟨congrArg Reply.removed hremove.result, hremove.solver⟩
  | solve => exact ⟨rfl, (h.minimiseListed hu.consistent).1⟩
  | value v =>
      refine ⟨congrArg Reply.number ?_, h⟩
      obtain ⟨t, rfl, ht⟩ := h
      have hrow : t.row? = u.tableau.row? := funext ht.row?_eq
      rw [Solver.value, Solver.value, ← hrow]
      rfl
  | contains key =>
      refine ⟨congrArg Reply.found ?_, h⟩
      obtain ⟨t, rfl, ht⟩ := h
      rfl
  | size =>
      refine ⟨congrArg Reply.count ?_, h⟩
      obtain ⟨t, rfl, ht⟩ := h
      rfl
  | objectiveValue =>
      refine ⟨congrArg Reply.number ?_, h⟩
      obtain ⟨t, rfl, ht⟩ := h
      rw [objectiveValue, objectiveValue, ← ht.row?_eq]
      rfl

theorem Same.runListed
    (h : s.Same u)
    (hu : u.WellFormed)
    (calls : List (Call K)) :
    s.repliesListed calls = u.replies calls ∧ (s.runListed calls).Same (u.run calls) := by
  induction calls generalizing s u with
  | nil =>
      exact ⟨rfl, h⟩
  | cons call calls ih =>
      obtain ⟨hreply, hsame⟩ := h.answerListed hu call
      obtain ⟨hreplies, hrun⟩ := ih hsame (hu.answer call)
      exact ⟨congrArg₂ List.cons hreply hreplies, hrun⟩

end Calls

/--
After every run, refused additions included and whatever the arithmetic, the columns are the
transpose of the rows and no row mentions a basic symbol.  Had the index been kept by reports alone
from the first call on, all replies, rows and columns would be the same.
-/
theorem index_exact
    (settings : SolverSettings) (calls : List (Call K)) :
    let s := (new settings).run calls
    (∀ x b, b ∈ s.tableau.column x ↔ ∃ r, s.tableau.row? b = some r ∧ x ∈ r.symbols) ∧
      (∀ b r x, s.tableau.row? b = some r → x ∈ r.symbols → s.tableau.row? x = none) ∧
      s.tableau.Reported ∧
      ((new settings).runListed calls).Same s ∧
      (new settings).repliesListed calls = (new settings).replies calls := by
  have h := (wellFormed_run settings calls).consistent
  have hnew : (new (K := K) settings).Same (new settings) := ⟨_, rfl, Tableau.Same.refl _⟩
  obtain ⟨hreplies, hrun⟩ := hnew.runListed (wellFormed_new settings) calls
  exact ⟨h.mem_column_iff, h.row?_eq_none, h.reported, hrun, hreplies⟩

end Solver
end LinearLayout
