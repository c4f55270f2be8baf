import LinearLayout.Proofs.Layout.Sessions
import LinearLayout.Proofs.Solver.Exact

/-!
# The solvers of a session

A layout changes its solver only by adding and removing equations.  So whatever holds of a new
solver, and is kept by every addition and every removal, holds of the solvers of all layouts; in
particular each of them is a solver that was new once and has been called since then.
-/

namespace LinearLayout
namespace Solver

variable {K : Type} [Scalar K] {s : Solver K} {P : Solver K → Prop}

/-- A property of solvers that every addition and every removal keeps. -/
structure Lasting (P : Solver K → Prop) : Prop where
  add : ∀ s e, P s → P (s.add e).solver
  remove : ∀ s key, P s → P (s.remove key).solver

/-- Equations of a list are added one by one where they are accepted. -/
def addIfAccepted (acc : List EquationKey × Solver K) (e : Equation K) :
    List EquationKey × Solver K :=
  match (acc.2.add e).result with
  | .ok key => (acc.1 ++ [key], (acc.2.add e).solver)
  | .error _ => (acc.1, (acc.2.add e).solver)

theorem addAccepted_eq
    (s : Solver K) (es : List (Equation K)) :
    s.addAccepted es = es.foldl addIfAccepted ([], s) :=
  rfl

theorem addIfAccepted_snd
    (acc : List EquationKey × Solver K) (e : Equation K) :
    (addIfAccepted acc e).2 = (acc.2.add e).solver := by
  unfold addIfAccepted
  split <;> rfl

theorem Lasting.removeAll
    (hP : Lasting P)
    (h : P s)
    (keys : List EquationKey) :
    P (s.removeAll keys) := by
  induction keys generalizing s with
  | nil =>
      exact h
  | cons key keys ih =>
      exact ih (hP.remove s key h)

theorem Lasting.addAll
    (hP : Lasting P)
    (h : P s)
    (keys : List EquationKey) (es : List (Equation K)) :
    P (s.addAll keys es).2 := by
  induction es generalizing s keys with
  | nil =>
      exact h
  | cons e es ih =>
      have hadd := hP.add s e h
      rw [Solver.addAll]
      cases (s.add e).result with
      | ok key => exact ih hadd (keys ++ [key])
      | error cause => exact hP.removeAll hadd keys

theorem Lasting.addAccepted
    (hP : Lasting P)
    (h : P s)
    (es : List (Equation K)) :
    P (s.addAccepted es).2 := by
  rw [addAccepted_eq]
  refine List.foldlRecOn es addIfAccepted (b := ([], s)) (motive := fun acc => P acc.2) h
    fun acc hacc e _ => ?_
  rw [addIfAccepted_snd]
  exact hP.add acc.2 e hacc

theorem lasting_wellFormed :
    Lasting fun s : Solver K => s.WellFormed :=
  ⟨fun _ e h => h.add e, fun _ key h => h.remove key⟩

theorem lasting_exact :
    Lasting Exact :=
  ⟨fun _ e h => h.add e, fun _ key h => h.remove key⟩

/-- The solver was new once and has been called since then. -/
def Reached (s : Solver K) : Prop :=
  ∃ settings calls, s = (new settings).run calls

theorem lasting_reached :
    Lasting fun s : Solver K => s.Reached where
  add := by
    rintro s e ⟨settings, calls, rfl⟩
    refine ⟨settings, calls ++ [.add e], ?_⟩
    rw [run_append]
    rfl
  remove := by
    rintro s key ⟨settings, calls, rfl⟩
    refine ⟨settings, calls ++ [.remove key], ?_⟩
    rw [run_append]
    rfl

end Solver

namespace Layout

variable {K : Type} [Scalar K] {l : Layout K} {P : Solver K → Prop}

section Requests

variable (hP : Solver.Lasting P) (h : P l.solver)

include hP h

theorem lasts_install
    (c : Constraint K) :
    P (l.install c).2.solver := by
  have hadd := hP.addAll h [] c.equations
  rcases install_cases l c with ⟨cause, s, heq, rfl | ⟨reason, hs⟩⟩ | ⟨keys, s, heq, _, hs⟩
  · rw [heq]
    exact h
  · rw [hs] at hadd
    rw [heq]
    exact hadd
  · rw [hs] at hadd
    rw [heq]
    exact hadd

theorem lasts_add
    (c : Constraint K) :
    P (l.add c).2.solver := by
  unfold Layout.add
  split
  · exact h
  · exact lasts_install hP h c

theorem lasts_without
    (id : ConstraintId) :
    P (l.without id).solver := by
  cases hid : l.constraints.get? id with
  | none =>
      rw [without_of_get?_eq_none hid]
      exact h
  | some a =>
      have hsolver : (l.without id).solver = l.solver.removeAll a.keys := by
        simp [Layout.without, uninstall, hid]
      rw [hsolver]
      exact hP.removeAll h a.keys

theorem lasts_remove
    (id : ConstraintId) :
    P (l.remove id).2.solver := by
  rw [remove_snd]
  exact lasts_without (l := l.unmarkSystem id) hP h id

theorem lasts_removeAll
    (ids : List ConstraintId) :
    P (l.removeAll ids).solver :=
  removeAll_induction (P := fun l => P l.solver) (fun _ id hl => lasts_remove hP hl id) h ids

theorem lasts_dropForeign :
    P l.dropForeign.solver :=
  lasts_removeAll hP h _

theorem lasts_update
    (id : ConstraintId) (edit : Constraint K → Constraint K) :
    P (l.update id edit).2.solver := by
  unfold Layout.update
  rw [uninstall_eq]
  cases l.constraint? id with
  | none => exact h
  | some c =>
      have hinstalled := lasts_install hP (lasts_without hP h id) (edit c)
      simp only [Option.map_some]
      split
      · next m heq => rwa [heq] at hinstalled
      · next cause m heq => rwa [heq] at hinstalled

theorem lasts_adopt
    (e : Entity) (size : IntrinsicSize K) (sizes : PerAxis (List ConstraintId)) :
    P (l.adopt e size sizes).solver :=
  hP.addAccepted h (Axis.all.flatMap (boxEquations e))

theorem lasts_manage
    (e : Entity) :
    P (l.manage e).solver := by
  unfold Layout.manage
  split
  · exact h
  · exact lasts_adopt hP h _ _ _

theorem lasts_release
    (e : Entity) :
    P (l.release e).solver := by
  cases hr : l.entities.get? e with
  | none =>
      rw [release_of_get?_eq_none hr]
      exact h
  | some r =>
      have hstruck : P (l.struck e r).solver := hP.removeAll h r.boxKeys
      have hstripped : P (l.stripped e r).solver := lasts_removeAll hP hstruck _
      rw [release_of_get? hr]
      exact lasts_dropForeign hP hstripped

theorem lasts_pin
    (supply : IdSupply) (v : Variable) (x : K) :
    P (l.pin supply v x).2.1.solver := by
  unfold Layout.pin
  split
  · cases l.pin? v with
    | some id =>
        have hupdated := lasts_update hP h id fun c => c.withOffset x
        show P (l.movePin v id x).2.solver
        unfold movePin
        split
        · next m heq => rwa [heq] at hupdated
        · next cause m heq => rwa [heq] at hupdated
    | none =>
        have hinstalled := lasts_install hP h (.toValue supply.take.1 v .equal x)
        show P (l.newPin v supply.take.1 x).2.solver
        unfold newPin
        split
        · next m heq => rwa [heq] at hinstalled
        · next cause m heq => rwa [heq] at hinstalled
  · exact h

theorem lasts_unpin
    (v : Variable) :
    P (l.unpin v).solver := by
  unfold Layout.unpin
  split
  · exact h
  · next id _ => exact lasts_remove (l := { l with pins := l.pins.erase v }) hP h id

theorem lasts_installSystem
    (cs : List (Constraint K)) :
    P (l.installSystem cs).2.2.solver := by
  induction cs generalizing l with
  | nil =>
      exact h
  | cons c cs ih =>
      have hinstalled := lasts_install hP h c
      rcases hc : l.install c with ⟨cause | _, m⟩
      · rw [hc] at hinstalled
        rw [installSystem_of_error hc]
        exact ih hinstalled
      · rw [hc] at hinstalled
        rw [installSystem_of_ok hc]
        exact ih (l := m.markSystem c.id) hinstalled

theorem lasts_changeIntrinsic
    (supply : IdSupply) (e : Entity) (axis : Axis) (change : IntrinsicChange K) :
    P (l.changeIntrinsic supply e axis change).2.1.solver := by
  cases hr : l.entities.get? e with
  | none =>
      rw [changeIntrinsic_of_get?_eq_none hr]
      exact h
  | some r =>
      rw [changeIntrinsic_of_get? hr]
      generalize (r.intrinsic.get axis).change change = after
      split
      · exact h
      · have hcleared : P (l.cleared e axis r after).solver :=
          lasts_removeAll (l := (l.storeIntrinsic e axis after).storeSizeConstraints e axis [])
            hP h _
        exact lasts_installSystem hP hcleared _

theorem lasts_serve
    (supply : IdSupply) (request : Request K) :
    P (l.serve supply request).1.solver := by
  cases request with
  | manage e => exact lasts_manage hP h e
  | release e => exact lasts_release hP h e
  | remove id => exact lasts_remove hP h id
  | update id edit => exact lasts_update hP h id edit
  | pin v x => exact lasts_pin hP h supply v x
  | unpin v => exact lasts_unpin hP h v
  | changeIntrinsic e axis change => exact lasts_changeIntrinsic hP h supply e axis change
  | removeExternal e =>
      show P (l.removeExternal e).2.solver
      rw [removeExternal_snd]
      exact lasts_removeAll hP h _
  | needsSize e axis =>
      show P (l.needsSize e axis).2.solver
      unfold needsSize
      split <;> exact h

end Requests

section Split

theorem lasts_takeAllOwned
    (hP : Solver.Lasting P)
    (h : P l.solver)
    (es : List Entity) :
    P (l.takeAllOwned es).2.solver := by
  induction es using List.reverseRecOn with
  | nil =>
      exact h
  | append_singleton es e ih =>
      have htaken : (l.takeAllOwned (es ++ [e])).2 =
          ((l.takeAllOwned es).2.takeOwned e).2 := by
        rw [takeAllOwned, List.foldl_append]
        rfl
      rw [htaken, takeOwned_eq]
      exact lasts_removeAll hP ih _

theorem lasts_transfer
    (hP : Solver.Lasting P)
    {pair : Layout K × Layout K}
    (h : P pair.1.solver ∧ P pair.2.solver)
    (e : Entity) :
    P (transfer pair e).1.solver ∧ P (transfer pair e).2.solver := by
  cases hr : pair.1.entities.get? e with
  | none =>
      rw [transfer_of_get?_eq_none hr]
      exact h
  | some r =>
      rw [transfer_of_get? hr]
      exact ⟨hP.removeAll h.1 r.boxKeys, lasts_adopt hP h.2 _ _ _⟩

theorem lasts_receive
    (hP : Solver.Lasting P)
    (h : P l.solver)
    (m : Moving K) :
    P (l.receive m).solver := by
  have hinstalled := lasts_install hP h m.constraint
  unfold receive
  split
  · next part heq =>
    rw [heq] at hinstalled
    split <;> exact hinstalled
  · next cause part heq => rwa [heq] at hinstalled

theorem lasts_split
    (hP : Solver.Lasting P)
    (hnew : ∀ settings, P (.new settings))
    (h : P l.solver)
    (root : Entity) (tree : ChildRelation) :
    P (l.split root tree).1.solver ∧ P (l.split root tree).2.solver := by
  obtain ⟨hrest, hpart⟩ := List.foldlRecOn (tree.subtree root) transfer
    (b := ((l.takeAllOwned (tree.subtree root)).2, new l.settings))
    (motive := fun pair => P pair.1.solver ∧ P pair.2.solver)
    ⟨lasts_takeAllOwned hP h _, hnew _⟩ fun _ hpair e _ => lasts_transfer hP hpair e
  unfold Layout.split
  refine ⟨lasts_dropForeign hP ?_, ?_⟩
  · exact hrest
  · exact List.foldlRecOn _ receive (motive := fun m => P m.solver) hpart
      fun _ hm m _ => lasts_receive hP hm m

end Split

section Join

theorem lasts_joinConstraint
    {other : Layout K} {acc : List ConstraintId × Layout K}
    (hP : Solver.Lasting P)
    (h : P acc.2.solver)
    (superseded : List ConstraintId) (entry : ConstraintId × ActiveConstraint K) :
    P (joinConstraint other superseded acc entry).2.solver := by
  have hinstalled := lasts_install hP h entry.2.constraint
  unfold joinConstraint
  split
  · exact h
  · split
    · next m heq =>
      rw [heq] at hinstalled
      split <;> exact hinstalled
    · next cause m heq => rwa [heq] at hinstalled

theorem lasts_join
    (hP : Solver.Lasting P)
    (h : P l.solver)
    (other : Layout K) :
    P (l.join other).2.solver := by
  obtain ⟨pins, hpins, _⟩ := joinPins_eq (l.newPins other).nodup_keys
    ((l.joinEntities other).2.joinConstraints other (l.superseded other)).2
  rw [join_eq]
  show P (Layout.joinPins _ (l.newPins other).entries).solver
  rw [hpins]
  have hentities : P (l.joinEntities other).2.solver :=
    joinEntities_induction (P := fun m => P m.solver)
      (fun _ _ _ _ _ hm => lasts_adopt hP hm _ _ _) h other
  rw [joinConstraints_eq]
  exact List.foldlRecOn other.constraints.entries (joinConstraint other (l.superseded other))
    (b := ([], (l.joinEntities other).2)) (motive := fun acc => P acc.2.solver) hentities
    fun _ hacc entry _ => lasts_joinConstraint hP hacc _ entry

end Join

end Layout

namespace Session

variable {K : Type} [Scalar K] {s : Session K} {h : Handle} {l : Layout K} {P : Solver K → Prop}

theorem All.lasts
    (hP : Solver.Lasting P)
    (hnew : ∀ settings, P (.new settings))
    (hs : s.All fun l => P l.solver)
    (event : Event K) :
    (s.step event).All fun l => P l.solver := by
  cases event with
  | make owner items edit => exact hs
  | copy h id => exact hs
  | start settings => exact hs.share (hnew _)
  | ask h request => exact hs.ask fun l hl => Layout.lasts_serve hP (hs h l hl) s.ids request
  | add h index edit => exact hs.add fun l hl c _ => Layout.lasts_add hP (hs h l hl) _
  | replace h id index edit =>
      exact hs.replace fun l c hl _ => Layout.lasts_update hP (hs h l hl) id _
  | split h root tree => exact hs.split fun l hl => Layout.lasts_split hP hnew (hs h l hl) root tree
  | join target source =>
      exact hs.join (fun _ => hnew _) fun l other _ hl _ =>
        Layout.lasts_join hP (hs target l hl) other

/-- What holds of new solvers and lasts holds of the solvers of all layouts of a session. -/
theorem all_of_lasting
    (hP : Solver.Lasting P)
    (hnew : ∀ settings, P (.new settings))
    (events : List (Event K)) :
    ((empty : Session K).run events).All fun l => P l.solver := by
  induction events using List.reverseRecOn with
  | nil =>
      exact nofun
  | append_singleton events event ih =>
      rw [run_append]
      exact ih.lasts hP hnew event

/-- The solver of a layout was new once and has only been called since then. -/
theorem solver_reached
    (events : List (Event K))
    (hl : ((empty : Session K).run events).layout? h = some l) :
    ∃ settings calls, l.solver = (Solver.new settings).run calls :=
  all_of_lasting Solver.lasting_reached (fun settings => ⟨settings, [], rfl⟩) events h l hl

end Session
end LinearLayout
