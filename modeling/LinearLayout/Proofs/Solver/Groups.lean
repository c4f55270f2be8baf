import Mathlib.Logic.Relation
import LinearLayout.Proofs.Solver.Rejection
import LinearLayout.Proofs.Solver.Settled
import LinearLayout.Proofs.Tableau.Split

/-!
# Groups of variables

Equations link the variables of their terms.  Variables that no chain of equations links share a
tableau and an objective, but no row, and a settled solver has no reason to pivot anywhere but in
the part of an equation that comes or goes.  So the values of all other variables stay what they
are, to the last bit.

Nothing is assumed of the arithmetic.  The parts of the tableau are followed through a run by
dividing the symbols: unknowns like their variables, the symbols of an equation like its terms.
-/

namespace LinearLayout

variable {K : Type} [Scalar K]

namespace Equation

variable {V : Variable → Prop} {e : Equation K} {es : List (Equation K)} {v : Variable}

/-- The equation has a term of the variable. -/
def Mentions (e : Equation K) (v : Variable) : Prop :=
  ∃ term ∈ e.terms, term.var = v

/-- A chain of equations leads from one variable to the other. -/
def Linked (es : List (Equation K)) : Variable → Variable → Prop :=
  Relation.ReflTransGen fun v w => ∃ e ∈ es, e.Mentions v ∧ e.Mentions w

/-- The variable is linked to none of the equation, which is itself one of the links. -/
def Apart (es : List (Equation K)) (e : Equation K) (v : Variable) : Prop :=
  ∀ w, e.Mentions w → ¬ Linked (e :: es) v w

/-- All variables of the equation belong to a set. -/
def Inside (V : Variable → Prop) (e : Equation K) : Prop :=
  ∀ w, e.Mentions w → V w

/-- The variables of the equation belong to a set all or not at all. -/
def Uniform (V : Variable → Prop) (e : Equation K) : Prop :=
  ∀ w, e.Mentions w → (V w ↔ e.Inside V)

theorem Inside.uniform
    (h : e.Inside V) :
    e.Uniform V :=
  fun w hw => ⟨fun _ => h, fun _ => h w hw⟩

theorem uniform_iff :
    e.Uniform V ↔ (∀ term ∈ e.terms, V term.var) ∨ ∀ term ∈ e.terms, ¬ V term.var := by
  constructor
  · intro h
    by_cases hinside : e.Inside V
    · exact Or.inl fun term hterm => hinside _ ⟨term, hterm, rfl⟩
    · exact Or.inr fun term hterm hV => hinside ((h _ ⟨term, hterm, rfl⟩).1 hV)
  · rintro (hin | hout) w ⟨term, hterm, rfl⟩
    · refine ⟨fun _ => ?_, fun _ => hin term hterm⟩
      rintro _ ⟨other, hother, rfl⟩
      exact hin other hother
    · exact ⟨fun hV => absurd hV (hout term hterm), fun hinside => hinside _ ⟨term, hterm, rfl⟩⟩

/-- A variable is apart from an equation if a set that divides no equation separates them. -/
theorem apart_iff :
    Apart es e v ↔ ∃ V : Variable → Prop, e.Inside V ∧ (∀ e' ∈ es, e'.Uniform V) ∧ ¬ V v := by
  constructor
  · intro h
    refine ⟨fun u => ∃ w, e.Mentions w ∧ Linked (e :: es) u w,
      fun w hw => ⟨w, hw, Relation.ReflTransGen.refl⟩,
      fun e' he' u hu => ⟨?_, fun hinside => hinside u hu⟩,
      fun ⟨w, hw, hlinked⟩ => h w hw hlinked⟩
    rintro ⟨w, hw, hlinked⟩ u' hu'
    exact ⟨w, hw, hlinked.head ⟨e', List.mem_cons_of_mem _ he', hu', hu⟩⟩
  · rintro ⟨V, hinside, huniform, hv⟩ w hw hlinked
    refine hv ?_
    clear hv
    -- Going back along the chain, no link leaves the set.
    induction hlinked using Relation.ReflTransGen.head_induction_on with
    | refl =>
        exact hinside w hw
    | head hjoined _ ih =>
        obtain ⟨e', he', hfirst, hsecond⟩ := hjoined
        rcases List.mem_cons.1 he' with rfl | he'
        · exact hinside _ hfirst
        · exact (huniform e' he' _ hfirst).2 ((huniform e' he' _ hsecond).1 ih)

end Equation

section Entering

variable {s s' : Solver K} {e : Equation K} {c : Compiled K} {t : Tableau K} {ps : List Pass}
variable {S : Symbol → Prop}

/-- A row that belongs to one part enters that part. -/
theorem Compiled.Enters.split
    (h : c.Enters s' (some t) ps)
    (hc : s.Compiles e c)
    (hsplit : c.solver.tableau.Split S)
    {P : Prop}
    (hrow : ∀ x ∈ c.row.symbols, (S x ↔ P))
    (hartificial : S c.artificial ↔ P) :
    t.Split S := by
  generalize ho : some t = o at h
  cases h with
  | @solved subject hchoice =>
      cases ho
      have hmem := (Tableau.chooseEntry_eq_solveFor hchoice).1
      exact hsplit.install fun x hx => (hrow x hx).trans (hrow subject hmem).symm
  | refused _ =>
      cases ho
  | tried _ =>
      exact hsplit.tryAccept hc.numbered.consistent (Compiled.firstPhase hc)
        (fun x hx => (hrow x hx).trans hartificial.symm) ho.symm

theorem Compiled.Enters.spares
    (h : c.Enters s' (some t) ps)
    (hc : s.Compiles e c)
    (hsplit : c.solver.tableau.Split S)
    (hrow : ∀ x ∈ c.row.symbols, S x)
    (hartificial : S c.artificial) :
    Tableau.Spares S c.solver.tableau t := by
  generalize ho : some t = o at h
  cases h with
  | @solved subject hchoice =>
      cases ho
      obtain ⟨hmem, hrole⟩ := Tableau.chooseEntry_eq_solveFor hchoice
      refine hsplit.spares_install hmem ?_ hrow
      rcases hrole with hfree | ⟨_, _, ⟨hslack, _⟩ | ⟨hdummy, _⟩⟩
      · exact Symbol.isObjective_of_isFree hfree
      · exact Symbol.isObjective_of_isSlack hslack
      · exact Symbol.isObjective_of_isDummy (hdummy subject hmem)
  | refused _ =>
      cases ho
  | tried _ =>
      exact hsplit.spares_tryAccept hc.numbered.consistent (Compiled.firstPhase hc) hartificial hrow
        ho.symm

end Entering

namespace Solver

variable {V : Variable → Prop} {S S' : Symbol → Prop} {s s' : Solver K} {e : Equation K}
variable {c : Compiled K} {t : Tableau K} {markers : Markers} {i : InstalledEquation K}
variable {key : EquationKey} {v : Variable} {x : Symbol} {calls : List (Call K)}

/-- The symbols are divided like the variables, and no row connects the two parts. -/
structure Divided (V : Variable → Prop) (S : Symbol → Prop) (s : Solver K) : Prop where
  split : s.tableau.Split S
  unknown : ∀ v x, s.symbols.get? v = some x → (S x ↔ V v)
  marker : ∀ k i, s.equations.get? k = some i →
    ∀ x ∈ i.markers.symbols, (S x ↔ i.equation.Inside V)

section Division

theorem divided_new
    (settings : SolverSettings) (V : Variable → Prop) (S : Symbol → Prop) :
    (new (K := K) settings).Divided V S where
  split b r hb hbo := by
    rcases Tableau.row?_addRow_eq_some hb with ⟨rfl, _⟩ | ⟨_, hb⟩
    · cases hbo
    · cases hb
  unknown v x h := by cases h
  marker k i h := by cases h

theorem Divided.withTableau
    (h : s.Divided V S)
    (hsplit : t.Split S) :
    (s.withTableau t).Divided V S :=
  ⟨hsplit, h.unknown, h.marker⟩

theorem Divided.minimise
    (h : s.Divided V S)
    (hs : s.WellFormed) :
    s.minimise.1.Divided V S :=
  h.withTableau (h.split.minimise hs.consistent .objective s.furtherPivots)

theorem Divided.register
    (h : s.Divided V S)
    (hmarkers : ∀ x ∈ markers.symbols, (S x ↔ e.Inside V))
    (hsplit : t.Split S) :
    (s.register e markers t).Divided V S := by
  refine ⟨hsplit, h.unknown, fun k i hk => ?_⟩
  rcases get?_of_register hk with ⟨_, rfl⟩ | hk
  · exact hmarkers
  · exact h.marker k i hk

theorem Divided.withdraw
    (h : s.Divided V S)
    (hs : s.WellFormed)
    (key : EquationKey) (i : InstalledEquation K) :
    (s.withdraw key i).Divided V S :=
  ⟨h.split.retract hs.consistent _ _, h.unknown,
    fun k j hj => h.marker k j (get?_of_withdraw hj).2⟩

/--
The division after an equation has been compiled: a new unknown goes with its variable, other new
symbols go with the equation.
-/
def divide (s : Solver K) (e : Equation K) (V : Variable → Prop) (S : Symbol → Prop)
    (x : Symbol) : Prop :=
  if x.index < s.nextIndex then S x
  else if x.isFree then ∃ v, (s.compile e).solver.symbols.get? v = some x ∧ V v
  else e.Inside V

theorem divide_of_lt
    (hx : x.index < s.nextIndex) :
    s.divide e V S x ↔ S x := by
  rw [divide, if_pos hx]

theorem divide_of_le
    (hx : s.nextIndex ≤ x.index)
    (hfree : x.isFree = false) :
    s.divide e V S x ↔ e.Inside V := by
  rw [divide, if_neg (Nat.not_lt.2 hx), if_neg (by simp [hfree])]

theorem divide_marker
    (hc : s.Compiles e (s.compile e)) :
    ∀ x ∈ (s.compile e).markers.symbols, (s.divide e V S x ↔ e.Inside V) :=
  fun x hx => divide_of_le (hc.new x hx).1
    (Symbol.isRestricted_iff.1 (hc.fits.1.isRestricted hx)).1

theorem divide_artificial
    (hc : s.Compiles e (s.compile e)) :
    s.divide e V S (s.compile e).artificial ↔ e.Inside V :=
  divide_of_le hc.grows.nextIndex rfl

theorem Divided.compile
    (h : s.Divided V S)
    (hs : s.WellFormed)
    (e : Equation K) :
    (s.compile e).solver.Divided V (s.divide e V S) := by
  have hc := hs.toNumbered.compiles e
  refine ⟨?_, fun v x hv => ?_, fun k i hk x hx => ?_⟩
  · rw [hc.grows.tableau]
    exact h.split.congr hs.within fun x hx => divide_of_lt hx.1
  · rcases get?_compile_eq_some hv with hold | ⟨_, hle, _⟩
    · rw [divide_of_lt (hs.index_lt v x hold)]
      exact h.unknown v x hold
    · have hfree := hc.numbered.isFree v x hv
      rw [divide, if_neg (Nat.not_lt.2 hle), if_pos hfree]
      constructor
      · rintro ⟨w, hw, hVw⟩
        rw [← hc.numbered.injective w v x hw hv]
        exact hVw
      · exact fun hVv => ⟨v, hv, hVv⟩
  · rw [hc.grows.equations] at hk
    rw [divide_of_lt (hs.marker_lt k i hk x hx)]
    exact h.marker k i hk x hx

/-- The compiled row of an equation that the set does not divide belongs to one part. -/
theorem Divided.row_iff
    (h : c.solver.Divided V S)
    (hc : s.Compiles e c)
    (hmarkers : ∀ x ∈ c.markers.symbols, (S x ↔ e.Inside V))
    (huniform : e.Uniform V) :
    ∀ x ∈ c.row.symbols, (S x ↔ e.Inside V) := by
  intro x hx
  rcases hc.origin x hx with ⟨term, hterm, y, hy, hmem⟩ | hx
  · have hside : S y ↔ e.Inside V :=
      (h.unknown _ y hy).trans (huniform _ ⟨term, hterm, rfl⟩)
    rcases hmem with rfl | ⟨r, hr, hx⟩
    · exact hside
    · have hyo := Symbol.isObjective_of_isFree (hc.numbered.isFree _ y hy)
      exact (h.split y r hr hyo x hx).trans hside
  · exact hmarkers x hx

theorem Divided.add
    (h : s.Divided V S)
    (hs : s.WellFormed)
    (huniform : ∀ e' ∈ s.acceptedBy (.add e), e'.Uniform V) :
    (s.add e).solver.Divided V (s.divide e V S) := by
  have hc := hs.toNumbered.compiles e
  have hcompiled := h.compile hs e
  have hmarkers := divide_marker (V := V) (S := S) hc
  obtain ⟨s', o, ps, henters, hadd⟩ := Compiled.exists_enters s e
  have hdivided : s'.Divided V (s.divide e V S) := by
    refine ⟨?_, ?_, ?_⟩
    · rw [henters.grows.tableau]
      exact hcompiled.split
    · rw [henters.symbols]
      exact hcompiled.unknown
    · rw [henters.grows.equations]
      exact hcompiled.marker
  simp only [acceptedBy, hadd] at huniform
  rw [hadd]
  cases o with
  | none =>
      exact hdivided
  | some t =>
      have hrow := hcompiled.row_iff hc hmarkers (huniform e List.mem_cons_self)
      have hsplit := henters.split hc hcompiled.split hrow (divide_artificial hc)
      have hnumbered := henters.numbered hc.numbered
      obtain ⟨hconsistent, hwithin⟩ := henters.consistent hc
      have hissued : ∀ x ∈ (s.compile e).markers.errors, s'.Issued x :=
        fun x hx => hc.issued_marker henters.grows x (Markers.mem_symbols_of_mem_errors hx)
      rw [Compiled.conclude, enforce_solver]
      exact (hdivided.register hmarkers (hsplit.chargeAll _ _)).minimise
        (hs.register hc henters.grows hnumbered (hconsistent.chargeAll _ _)
          (hwithin.chargeAll hissued _))

theorem Divided.remove
    (h : s.Divided V S)
    (hs : s.WellFormed)
    (key : EquationKey) :
    (s.remove key).solver.Divided V S := by
  cases hk : s.equations.get? key with
  | none =>
      rw [remove_of_get?_eq_none hk]
      exact h
  | some i =>
      rw [remove_of_get? hk]
      exact (h.withdraw hs key i).minimise (hs.withdraw hk)

theorem Divided.answer
    {call : Call K}
    (h : s.Divided V S)
    (hs : s.WellFormed)
    (huniform : ∀ e ∈ s.acceptedBy call, e.Uniform V) :
    ∃ S', (s.answer call).2.1.Divided V S' := by
  cases call with
  | add e => exact ⟨_, h.add hs huniform⟩
  | remove key => exact ⟨S, h.remove hs key⟩
  | solve => exact ⟨S, h.minimise hs⟩
  | value v => exact ⟨S, h⟩
  | contains key => exact ⟨S, h⟩
  | size => exact ⟨S, h⟩
  | objectiveValue => exact ⟨S, h⟩

/-- As long as no accepted equation connects the two sets of variables, the parts are separate. -/
theorem Divided.run
    (h : s.Divided V S)
    (hs : s.WellFormed)
    (huniform : ∀ e ∈ s.accepted calls, e.Uniform V) :
    ∃ S', (s.run calls).Divided V S' := by
  induction calls generalizing s S with
  | nil =>
      exact ⟨S, h⟩
  | cons call calls ih =>
      obtain ⟨S', hanswer⟩ := h.answer hs fun e he => huniform e (List.mem_append_left _ he)
      exact ih hanswer (hs.answer call) fun e he => huniform e (List.mem_append_right _ he)

end Division

section Values

theorem value_eq_of_spares
    (hspares : Tableau.Spares S s.tableau s'.tableau)
    (hsymbols : s'.symbols.get? v = s.symbols.get? v)
    (hoff : ∀ x, s.symbols.get? v = some x → x.isFree = true ∧ ¬ S x) :
    s'.value v = s.value v := by
  rw [value, value, hsymbols]
  cases hx : s.symbols.get? v with
  | none =>
      rfl
  | some x =>
      obtain ⟨hfree, hx⟩ := hoff x hx
      rw [Option.bind_some, Option.bind_some,
        hspares.row?_eq x (Symbol.isObjective_of_isFree hfree) hx]

theorem get?_compile_of_not_mentions
    (hs : s.Numbered)
    (hv : ¬ e.Mentions v) :
    (s.compile e).solver.symbols.get? v = s.symbols.get? v := by
  cases hx : (s.compile e).solver.symbols.get? v with
  | some x =>
      rcases get?_compile_eq_some hx with hold | ⟨_, _, hmentions⟩
      · exact hold.symm
      · exact absurd hmentions hv
  | none =>
      cases hold : s.symbols.get? v with
      | none =>
          rfl
      | some x =>
          rw [(hs.compiles e).grows.symbols v x hold] at hx
          cases hx

/-- In a settled solver the part of an equation that comes is the only one that changes. -/
theorem Divided.value_add
    (h : s.Divided V S)
    (hs : s.WellFormed)
    (hsettled : s.Settled)
    (hinside : e.Inside V)
    (hv : ¬ V v) :
    (s.add e).solver.value v = s.value v := by
  have hc := hs.toNumbered.compiles e
  have hcompiled := h.compile hs e
  have hmarkers : ∀ x ∈ (s.compile e).markers.symbols, s.divide e V S x :=
    fun x hx => (divide_marker hc x hx).2 hinside
  have hrow : ∀ x ∈ (s.compile e).row.symbols, s.divide e V S x := fun x hx =>
    (hcompiled.row_iff hc (divide_marker hc) hinside.uniform x hx).2 hinside
  obtain ⟨s', o, ps, henters, hadd⟩ := Compiled.exists_enters s e
  have hsymbols : s'.symbols.get? v = s.symbols.get? v := by
    rw [henters.symbols]
    exact get?_compile_of_not_mentions hs.toNumbered fun hmentions => hv (hinside v hmentions)
  have hoff : ∀ x, s.symbols.get? v = some x → x.isFree = true ∧ ¬ s.divide e V S x := by
    intro x hx
    rw [divide_of_lt (hs.index_lt v x hx), h.unknown v x hx]
    exact ⟨hs.isFree v x hx, hv⟩
  rw [hadd]
  cases o with
  | none =>
      refine value_eq_of_spares (S := s.divide e V S) ?_ hsymbols hoff
      rw [Compiled.conclude, henters.grows.tableau, hc.grows.tableau]
      exact Tableau.Spares.refl
  | some t =>
      have hspares := henters.spares hc hcompiled.split hrow ((divide_artificial hc).2 hinside)
      have hsplit := henters.split hc hcompiled.split
        (hcompiled.row_iff hc (divide_marker hc) hinside.uniform) (divide_artificial hc)
      have hcharged := hspares.trans (hsplit.spares_chargeAll hc.fits.1
        (fun x hx => hmarkers x (Markers.mem_symbols_of_mem_errors hx))
        (e.strength.weight?.getD 0))
      rw [hc.grows.tableau] at hcharged
      rw [Compiled.conclude, enforce_solver, minimise_fst]
      refine value_eq_of_spares (S := s.divide e V S) (hcharged.trans ?_) hsymbols hoff
      exact (hsplit.chargeAll _ _).spares_minimise ((henters.consistent hc).1.chargeAll _ _) rfl
        ((Tableau.quiet_of_entering?_eq_none hsettled).of_spares rfl hcharged) _

/-- In a settled solver the part of an equation that goes is the only one that changes. -/
theorem Divided.value_remove
    (h : s.Divided V S)
    (hs : s.WellFormed)
    (hsettled : s.Settled)
    (hk : s.equations.get? key = some i)
    (hinside : i.equation.Inside V)
    (hv : ¬ V v) :
    (s.remove key).solver.value v = s.value v := by
  have hretracted := h.split.spares_retract hs.consistent (hs.fits key i hk).1
    (fun x hx => (h.marker key i hk x hx).2 hinside) (i.equation.strength.weight?.getD 0)
  rw [remove_of_get? hk, minimise_fst]
  refine value_eq_of_spares (hretracted.trans ?_) rfl fun x hx =>
    ⟨hs.isFree v x hx, fun hSx => hv ((h.unknown v x hx).1 hSx)⟩
  exact (h.split.retract hs.consistent _ _).spares_minimise (hs.consistent.retract _ _) rfl
    ((Tableau.quiet_of_entering?_eq_none hsettled).of_spares rfl hretracted) _

/--
If all minimisations of the violations have ended as optimal, then adding any equation, also one
that is refused, or removing an installed one leaves the value of every variable that no chain of
accepted equations links to it.
-/
theorem value_eq_of_apart
    (settings : SolverSettings) (calls : List (Call K))
    (hpasses : Conclusive ((new settings).passes calls)) :
    let s := (new settings).run calls
    (∀ e v, Equation.Apart ((new settings).accepted calls) e v →
      (s.add e).solver.value v = s.value v) ∧
    ∀ key i v, s.equations.get? key = some i →
      Equation.Apart ((new settings).accepted calls) i.equation v →
      (s.remove key).solver.value v = s.value v := by
  have hs := wellFormed_run settings calls
  have hsettled := (settled_new settings).run (wellFormed_new settings) hpasses
  have hdivided : ∀ V : Variable → Prop,
      (∀ e ∈ (new settings).accepted calls, e.Uniform V) →
      ∃ S, ((new settings).run calls).Divided V S := fun V huniform =>
    (divided_new settings V fun _ => False).run (wellFormed_new settings) huniform
  constructor
  · intro e v hapart
    obtain ⟨V, hinside, huniform, hv⟩ := Equation.apart_iff.1 hapart
    obtain ⟨S, hS⟩ := hdivided V huniform
    exact hS.value_add hs hsettled hinside hv
  · intro key i v hk hapart
    obtain ⟨V, hinside, huniform, hv⟩ := Equation.apart_iff.1 hapart
    obtain ⟨S, hS⟩ := hdivided V huniform
    exact hS.value_remove hs hsettled hk hinside hv

/-- A variable of another entity than the sample. -/
def otherVariable : Variable :=
  ⟨⟨2⟩, .left⟩

/-- A pinned variable, and a bound and a preference for another one that contradict each other. -/
def separateCalls : List (Call Rat) :=
  [.add (.pin sampleVariable 5),
    .add ⟨[⟨1, otherVariable⟩], .atLeast, 2, .required⟩,
    .add ⟨[⟨1, otherVariable⟩], .equal, 1, (Priority.preferred 1).strength⟩]

/-- Neither a stronger preference nor the end of the bound moves the pinned variable. -/
theorem value_eq_of_apart_separate :
    let s := (new {}).run separateCalls
    (s.add ⟨[⟨1, otherVariable⟩], .equal, 9, (Priority.preferred 10).strength⟩).solver.value
        sampleVariable = 5 ∧
      (s.remove ⟨1⟩).solver.value sampleVariable = 5 := by
  obtain ⟨hadd, hremove⟩ := value_eq_of_apart {} separateCalls (by
    unfold Conclusive
    decide +kernel)
  have hvalue : ((new {}).run separateCalls).value sampleVariable = 5 := by
    decide +kernel
  have hapart : ∀ e : Equation Rat, (∀ term ∈ e.terms, term.var = otherVariable) →
      Equation.Apart ((new {}).accepted separateCalls) e sampleVariable := by
    intro e he
    refine Equation.apart_iff.2 ⟨(· = otherVariable), ?_, fun e' he' => ?_, by decide⟩
    · rintro _ ⟨term, hterm, rfl⟩
      exact he term hterm
    · exact Equation.uniform_iff.2 ((by decide +kernel :
        ∀ e' ∈ (new {}).accepted separateCalls, (∀ term ∈ e'.terms, term.var = otherVariable) ∨
          ∀ term ∈ e'.terms, ¬ term.var = otherVariable) e' he')
  obtain ⟨i, hi, hterms⟩ := Option.map_eq_some_iff.1 (by decide +kernel :
    (((new {}).run separateCalls).equations.get? ⟨1⟩).map
      (fun i => i.equation.terms.map Term.var) = some [otherVariable])
  refine ⟨(hadd _ _ (hapart _ (by simp))).trans hvalue,
    (hremove ⟨1⟩ i _ hi (hapart _ fun term hterm => ?_)).trans hvalue⟩
  exact List.mem_singleton.1 (hterms ▸ List.mem_map_of_mem hterm)

end Values

end Solver
end LinearLayout
