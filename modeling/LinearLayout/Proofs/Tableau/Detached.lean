import LinearLayout.Proofs.OrderedMap.Selections
import LinearLayout.Proofs.OrderedMap.Unchanged
import LinearLayout.Proofs.Markers
import LinearLayout.Proofs.Tableau.Removal

/-!
# Rows that share nothing with a tableau

A row whose symbols are new to a tableau can be brought in, charged for, and taken out again.  The
rows of the tableau are then as they were, cell by cell and in the same order: no stored row
mentions a symbol that is substituted, and what is charged for the errors is withdrawn exactly.

Of the arithmetic only that is assumed: a weight is kept by a row, it does not lower the objective,
and its negation cancels it.
-/

namespace LinearLayout

/-- A coefficient that a row keeps, that lowers no objective, and that its negation cancels. -/
structure Scalar.IsWeight {K : Type} [Scalar K] (w : K) : Prop where
  isNegligible : isNegligible w = false
  less_zero : less w 0 = false
  add_neg : Scalar.isNegligible (w + -w) = true

variable {K : Type} [Scalar K]

namespace Row

variable {r : Row K} {s i : Symbol} {ss : List Symbol} {k : K}

/-- A term in a new symbol is kept if its coefficient is. -/
theorem get?_addTerm_of_not_mem
    (hk : Scalar.isNegligible k = false)
    (hs : s ∉ r.symbols) :
    (r.addTerm s k).cells.get? s = some k := by
  rw [get?_addTerm, if_pos rfl, not_mem_symbols_iff.1 hs]
  exact prune_eq_some_iff.2 ⟨hk, rfl⟩

theorem mem_symbols_addTerm_self
    (hk : Scalar.isNegligible k = false)
    (hs : s ∉ r.symbols) :
    s ∈ (r.addTerm s k).symbols :=
  mem_symbols_iff.2 ⟨k, get?_addTerm_of_not_mem hk hs⟩

/-- Adds the same multiple of each of several symbols. -/
def addAll (r : Row K) (ss : List Symbol) (k : K) : Row K :=
  ss.foldl (fun r s => r.addTerm s k) r

theorem get?_addAll_of_not_mem
    (h : i ∉ ss) :
    (r.addAll ss k).cells.get? i = r.cells.get? i := by
  induction ss generalizing r with
  | nil =>
      rfl
  | cons s ss ih =>
      rw [List.mem_cons, not_or] at h
      exact (ih h.2).trans ((get?_addTerm _ _ _ _).trans (if_neg h.1))

/-- A new symbol has the coefficient that was added. -/
theorem get?_addAll
    (hk : Scalar.isNegligible k = false)
    (hnodup : ss.Nodup)
    (hnew : ∀ s ∈ ss, s ∉ r.symbols)
    (hi : i ∈ ss) :
    (r.addAll ss k).cells.get? i = some k := by
  induction ss generalizing r with
  | nil =>
      cases hi
  | cons s ss ih =>
      rw [List.nodup_cons] at hnodup
      by_cases his : i = s
      · subst his
        exact (get?_addAll_of_not_mem hnodup.1).trans
          (get?_addTerm_of_not_mem hk (hnew i List.mem_cons_self))
      · refine ih hnodup.2 (fun x hx hmem => ?_) ((List.mem_cons.1 hi).resolve_left his)
        have hxs : x ≠ s := fun hxs => hnodup.1 (hxs ▸ hx)
        exact hnew x (List.mem_cons_of_mem _ hx) ((mem_symbols_addTerm_of_ne hxs).1 hmem)

/-- A term that cancels the cell of its symbol erases it. -/
theorem addTerm_eq_without
    {c : K}
    (hc : r.cells.get? s = some c)
    (hk : Scalar.isNegligible (c + k) = true) :
    r.addTerm s k = r.without s := by
  have hcancel : accumulate k (r.cells.get? s) = none := by
    rw [hc, accumulate, prune, if_pos hk]
  simp only [addTerm, without, OrderedMap.erase,
    OrderedMap.alter_congr (g := fun _ => none) hcancel]

theorem without_addTerm
    (hk : Scalar.isNegligible k = false)
    (hs : s ∉ r.symbols) :
    (r.addTerm s k).without s = r := by
  have hinsert : r.cells.alter s (accumulate k) = r.cells.insert s k := by
    refine OrderedMap.alter_congr ?_
    rw [not_mem_symbols_iff.1 hs]
    exact prune_eq_some_iff.2 ⟨hk, rfl⟩
  simp only [addTerm, without, hinsert]
  rw [OrderedMap.erase_insert_of_not_mem k hs]

theorem without_addAll
    (hs : s ∉ ss) :
    (r.addAll ss k).without s = (r.without s).addAll ss k := by
  induction ss generalizing r with
  | nil =>
      rfl
  | cons x ss ih =>
      rw [List.mem_cons, not_or] at hs
      refine (ih hs.2).trans ?_
      have hswap : (r.addTerm x k).without s = (r.without s).addTerm x k := by
        simp only [addTerm, without, OrderedMap.erase_alter_comm (Ne.symm hs.1)]
      exact congrArg (fun r => r.addAll ss k) hswap

/-- What was added for new symbols is withdrawn exactly. -/
theorem addAll_addAll_neg
    (hk : ∀ s ∈ ss, Scalar.IsWeight k)
    (hnodup : ss.Nodup)
    (hnew : ∀ s ∈ ss, s ∉ r.symbols) :
    (r.addAll ss k).addAll ss (-k) = r := by
  induction ss generalizing r with
  | nil =>
      rfl
  | cons s ss ih =>
      rw [List.nodup_cons] at hnodup
      have hs := hnew s List.mem_cons_self
      have hweight := hk s List.mem_cons_self
      have hcell : ((r.addTerm s k).addAll ss k).cells.get? s = some k := by
        rw [get?_addAll_of_not_mem hnodup.1]
        exact get?_addTerm_of_not_mem hweight.isNegligible hs
      have hfirst : ((r.addTerm s k).addAll ss k).addTerm s (-k) = r.addAll ss k := by
        rw [addTerm_eq_without hcell hweight.add_neg, without_addAll hnodup.1,
          without_addTerm hweight.isNegligible hs]
      change (((r.addTerm s k).addAll ss k).addTerm s (-k)).addAll ss (-k) = r
      rw [hfirst]
      exact ih (fun x hx => hk x (List.mem_cons_of_mem _ hx)) hnodup.2
        fun x hx => hnew x (List.mem_cons_of_mem _ hx)

end Row

namespace Tableau

variable {t u : Tableau K} {row solved : Row K} {subject marker error o s : Symbol}
variable {markers : Markers} {k w : K}

section Rows

theorem rows_addTermTo :
    (t.addTermTo o s k).rows = t.rows.modify o fun r => r.addTerm s k := by
  unfold addTermTo
  split
  · next hnone =>
      have hget : t.rows.get? o = none := hnone
      exact (OrderedMap.alter_eq_self (by rw [hget]; rfl)).symm
  · next row hrow =>
      have hget : t.rows.get? o = some row := hrow
      exact OrderedMap.alter_congr (by rw [hget]; rfl)

theorem rows_charge
    (h : t.row? error = none) :
    (t.charge k error).rows = t.rows.modify .objective fun r => r.addTerm error k := by
  simp only [charge, h]
  exact rows_addTermTo

/-- Charging nonbasic errors changes the objective row alone. -/
theorem rows_chargeAll
    (hproper : markers.Proper)
    (h : ∀ error ∈ markers.errors, t.row? error = none) :
    (t.chargeAll markers k).rows =
      t.rows.modify .objective fun r => r.addAll markers.errors k := by
  have hobjective : ∀ error ∈ markers.errors, error ≠ .objective := fun error herror =>
    Symbol.ne_of_isObjective
      (hproper.isObjective (Markers.mem_symbols_of_mem_errors herror)) rfl
  unfold chargeAll
  generalize markers.errors = errors at h hobjective
  induction errors generalizing t with
  | nil =>
      exact (OrderedMap.modify_eq_self fun _ _ => rfl).symm
  | cons error errors ih =>
      rw [List.foldl_cons, ih (fun e he => ?_) fun e he => hobjective e (List.mem_cons_of_mem _ he),
        rows_charge (h error List.mem_cons_self), OrderedMap.modify_modify]
      · rfl
      · have hne := hobjective e (List.mem_cons_of_mem _ he)
        rw [row?_charge_of_ne hne]
        exact h e (List.mem_cons_of_mem _ he)

/-- Substituting a symbol that no row mentions changes no row. -/
theorem rows_substitute
    {replacement : Row K}
    (h : ∀ b r, t.row? b = some r → s ∉ r.symbols) :
    (t.substitute s replacement).rows = t.rows :=
  OrderedMap.mapValues_eq_self fun b r hb => Row.substitute_of_not_mem (h b r hb)

omit [Scalar K] in
theorem rows_removeColumn
    (h : ∀ b r, t.row? b = some r → s ∉ r.symbols) :
    (t.removeColumn s).rows = t.rows :=
  OrderedMap.mapValues_eq_self fun b r hb => Row.without_of_not_mem (h b r hb)

theorem rows_install
    (h : ∀ b r, t.row? b = some r → subject ∉ r.symbols) :
    (t.install subject row).rows = t.rows.insert subject (row.solveFor subject) :=
  congrArg (fun rows : OrderedMap Symbol (Row K) => rows.insert subject (row.solveFor subject))
    (rows_substitute h)

omit [Scalar K] in
theorem rows_of_removeRow
    (h : t.removeRow s = some (row, u)) :
    u.rows = t.rows.erase s := by
  obtain ⟨r, _, heq⟩ := Option.map_eq_some_iff.1 h
  cases heq
  rfl

theorem rows_pivot
    {entering leaving : Symbol}
    (hl : t.row? leaving = some row)
    (h : ∀ b r, t.row? b = some r → b ≠ leaving → entering ∉ r.symbols) :
    (t.pivot entering leaving).rows =
      (t.rows.erase leaving).insert entering (row.exchange leaving entering) := by
  obtain ⟨rest, hrest⟩ := removeRow_of_row? hl
  have hunmentioned : ∀ b r, rest.row? b = some r → entering ∉ r.symbols := by
    intro b r hb
    obtain ⟨hne, hb⟩ := row?_of_removeRow_eq_some hrest hb
    exact h b r hb hne
  simp only [pivot, hrest]
  exact congrArg (fun rows : OrderedMap Symbol (Row K) =>
    rows.insert entering (row.exchange leaving entering))
    ((rows_substitute hunmentioned).trans (rows_of_removeRow hrest))

end Rows

section Entering

/-- A minimisation has nothing to do exactly where no slack of the objective row falls. -/
theorem entering?_eq_none_iff :
    t.entering? o = none ↔
      ∀ r x c, t.row? o = some r → r.cells.get? x = some c → x.isSlack = true →
        Scalar.less c 0 = false := by
  cases ho : t.row? o with
  | none => simp [entering?, ho]
  | some row =>
      simp only [entering?, ho, Option.bind_some, Option.map_eq_none_iff, List.find?_eq_none]
      constructor
      · intro h r x c hr hc hslack
        cases hr
        simpa [hslack] using h (x, c) (OrderedMap.get?_eq_some_iff.1 hc)
      · intro h e he
        have hless := h row e.1 e.2 rfl (OrderedMap.get?_eq_some_iff.2 he)
        simpa using hless

theorem minimise_of_entering?_eq_none
    (h : t.entering? o = none)
    (further : Nat) :
    t.minimise o further = (t, .optimal) := by
  unfold minimise
  rw [h]

theorem entering?_of_rows
    (hrows : u.rows = t.rows)
    (h : t.entering? o = none) :
    u.entering? o = none := by
  have hrow : u.row? o = t.row? o := congrArg (fun rows => rows.get? o) hrows
  rw [entering?_eq_none_iff] at h ⊢
  rwa [hrow]

end Entering

section Detached

/--
A row that shares no symbol with a tableau.  It has an unknown to be solved for, and it mentions
the marker by which it is found again.
-/
structure Detached (t : Tableau K) (row : Row K) (subject : Symbol) (markers : Markers) :
    Prop where
  consistent : t.Consistent
  nonbasic : t.Nonbasic row
  subject_mem : subject ∈ row.symbols
  isFree : subject.isFree = true
  fresh : t.Fresh subject
  proper : markers.Proper
  nodup : markers.errors.Nodup
  new : ∀ x ∈ markers.symbols, t.Fresh x
  marker_mem : markers.marker ∈ row.symbols

/-- A tableau after a row has come in and its errors have been charged for. -/
def charged (t : Tableau K) (row : Row K) (subject : Symbol) (markers : Markers) (w : K) :
    Tableau K :=
  (t.install subject row).chargeAll markers w

omit [Scalar K] in
theorem Detached.ne_subject
    (h : t.Detached row subject markers)
    (hs : s ∈ markers.symbols) :
    s ≠ subject := by
  have hfree := (Symbol.isRestricted_iff.1 (h.proper.isRestricted hs)).1
  rintro rfl
  rw [h.isFree] at hfree
  cases hfree

omit [Scalar K] in
theorem Detached.ne_objective
    (h : t.Detached row subject markers) :
    subject ≠ .objective :=
  Symbol.ne_of_isObjective (Symbol.isObjective_of_isFree h.isFree) rfl

theorem Detached.rows_install
    (h : t.Detached row subject markers) :
    (t.install subject row).rows = t.rows.insert subject (row.solveFor subject) :=
  Tableau.rows_install h.fresh.2

omit [Scalar K] in
theorem row?_of_rows_insert
    (hrows : u.rows = t.rows.insert subject solved) :
    u.row? s = if s = subject then some solved else t.row? s := by
  change u.rows.get? s = _
  rw [hrows, OrderedMap.get?_insert]
  rfl

/-- The errors are not basic, before they are charged for and afterwards. -/
theorem Detached.row?_error
    (h : t.Detached row subject markers)
    (herror : error ∈ markers.errors) :
    (t.install subject row).row? error = none := by
  have hmem := Markers.mem_symbols_of_mem_errors herror
  rw [row?_of_rows_insert h.rows_install, if_neg (h.ne_subject hmem), (h.new error hmem).1]

theorem Detached.rows_charged
    (h : t.Detached row subject markers) :
    (t.charged row subject markers w).rows =
      (t.rows.insert subject (row.solveFor subject)).modify .objective
        fun r => r.addAll markers.errors w := by
  rw [charged, rows_chargeAll h.proper fun error herror => h.row?_error herror, h.rows_install]

/-- What is charged for preferences lowers no objective, so there is nothing to minimise. -/
theorem Detached.entering?_charged
    (h : t.Detached row subject markers)
    (hw : ∀ error ∈ markers.errors, Scalar.IsWeight w)
    (hsettled : t.entering? .objective = none) :
    (t.charged row subject markers w).entering? .objective = none := by
  rw [entering?_eq_none_iff] at hsettled ⊢
  intro r x c hr hc hslack
  have hrow : (t.charged row subject markers w).row? .objective =
      (t.row? .objective).map fun r => r.addAll markers.errors w := by
    change (t.charged row subject markers w).rows.get? .objective = _
    rw [h.rows_charged, OrderedMap.get?_modify, if_pos rfl, OrderedMap.get?_insert,
      if_neg h.ne_objective.symm]
    rfl
  rw [hrow] at hr
  obtain ⟨q, hq, rfl⟩ := Option.map_eq_some_iff.1 hr
  by_cases hx : x ∈ markers.errors
  · have hnew : ∀ s ∈ markers.errors, s ∉ q.symbols := fun s hs =>
      (h.new s (Markers.mem_symbols_of_mem_errors hs)).2 _ q hq
    rw [Row.get?_addAll (hw x hx).isNegligible h.nodup hnew hx] at hc
    cases hc
    exact (hw x hx).less_zero
  · rw [Row.get?_addAll_of_not_mem hx] at hc
    exact hsettled q x c hq hc hslack

/-- Withdrawing what was charged leaves the rows as the new row has found them. -/
theorem Detached.rows_withdrawn
    (h : t.Detached row subject markers)
    (hw : ∀ error ∈ markers.errors, Scalar.IsWeight w) :
    ((t.charged row subject markers w).chargeAll markers (-w)).rows =
      t.rows.insert subject (row.solveFor subject) := by
  have hnonbasic : ∀ error ∈ markers.errors,
      (t.charged row subject markers w).row? error = none := by
    intro error herror
    have hne : error ≠ .objective := Symbol.ne_of_isObjective
      (h.proper.isObjective (Markers.mem_symbols_of_mem_errors herror)) rfl
    refine (congrArg (fun rows => rows.get? error) h.rows_charged).trans ?_
    rw [OrderedMap.get?_modify, if_neg hne, ← h.rows_install]
    exact h.row?_error herror
  rw [rows_chargeAll h.proper hnonbasic, h.rows_charged, OrderedMap.modify_modify]
  refine OrderedMap.modify_eq_self fun r hr => ?_
  rw [OrderedMap.get?_insert, if_neg h.ne_objective.symm] at hr
  exact Row.addAll_addAll_neg hw h.nodup fun s hs =>
    (h.new s (Markers.mem_symbols_of_mem_errors hs)).2 _ r hr

/-- The marker leads to the new row: only rows of objectives are passed over. -/
theorem Detached.exit?_ne_none
    (h : t.Detached row subject markers)
    (hu : u.Consistent)
    (hsubject : u.row? subject = some (row.solveFor subject)) :
    u.exit? markers.marker ≠ none := by
  intro hexit
  have hmem : markers.marker ∈ (row.solveFor subject).symbols :=
    Row.mem_symbols_solveFor.2 ⟨h.ne_subject markers.marker_mem_symbols, h.marker_mem⟩
  have hcolumn := (hu.mem_column_iff markers.marker subject).2 ⟨_, hsubject, hmem⟩
  have hobjective := isObjective_of_exit?_eq_none hexit hcolumn hsubject
  rw [Symbol.isObjective_of_isFree h.isFree] at hobjective
  cases hobjective

/-- The new row is solved for the marker and deleted, and nothing is left of it. -/
theorem Detached.rows_deleteMarker
    (h : t.Detached row subject markers)
    (hu : u.Consistent)
    (hrows : u.rows = t.rows.insert subject (row.solveFor subject)) :
    (u.deleteMarker markers.marker).rows = t.rows := by
  have hnew := h.new _ markers.marker_mem_symbols
  have hne := h.ne_subject markers.marker_mem_symbols
  have hnone : u.row? markers.marker = none := by
    rw [row?_of_rows_insert hrows, if_neg hne, hnew.1]
  have hsubject : u.row? subject = some (row.solveFor subject) := by
    rw [row?_of_rows_insert hrows, if_pos rfl]
  have hunmentioned : ∀ b r, u.row? b = some r → b ≠ subject → markers.marker ∉ r.symbols := by
    intro b r hb hbs
    rw [row?_of_rows_insert hrows, if_neg hbs] at hb
    exact hnew.2 b r hb
  rcases hu.deleteMarker_cases markers.marker with
    ⟨r, hremove⟩ | ⟨leaving, r, left, _, hr, hmem, hremove⟩ | ⟨_, hexit, _⟩
  · rw [(row?_of_removeRow hremove).1] at hnone
    cases hnone
  · have hleaving : leaving = subject :=
      Classical.byContradiction fun hls => hunmentioned leaving r hr hls hmem
    subst hleaving
    rw [rows_of_removeRow hremove, rows_pivot hr hunmentioned, hrows,
      OrderedMap.erase_insert_of_not_mem _ (OrderedMap.get?_eq_none_iff.1 h.fresh.1)]
    exact OrderedMap.erase_insert_of_not_mem _ (OrderedMap.get?_eq_none_iff.1 hnew.1)
  · exact absurd hexit (h.exit?_ne_none hu hsubject)

/-- Taking out a row that shares nothing with the others restores their rows. -/
theorem Detached.rows_retract
    (h : t.Detached row subject markers)
    (hw : ∀ error ∈ markers.errors, Scalar.IsWeight w) :
    ((t.charged row subject markers w).retract markers w).rows = t.rows := by
  have hcharged : (t.charged row subject markers w).Consistent :=
    (h.consistent.install h.subject_mem h.nonbasic).chargeAll markers w
  refine retract_induction (P := fun u => u.rows = t.rows) (fun u error hu herror _ => ?_)
    (h.rows_deleteMarker (hcharged.chargeAll markers (-w)) (h.rows_withdrawn hw))
  refine (rows_removeColumn fun b r hb => ?_).trans hu
  have hb' : t.row? b = some r := (congrArg (fun rows => rows.get? b) hu).symm.trans hb
  exact (h.new error (Markers.mem_symbols_of_mem_errors herror)).2 b r hb'

end Detached

end Tableau
end LinearLayout
