import LinearLayout.Hierarchy.Basic
import LinearLayout.Proofs.Hierarchy.Reachable

/-!
# Hierarchies are forests

Parents, lists of children and the list of roots are written by separate steps of every change.
Each view is described after each step first.  From these descriptions it follows that the views
agree after every sequence of changes, and that climbing from parent to parent ends at a root.
-/

namespace LinearLayout
namespace Hierarchy

variable {h : Hierarchy} {e f c p child parent : Entity}

/-- What can be done to a hierarchy. -/
inductive Change where
  | addRoot (e : Entity)
  | addChild (parent child : Entity)
  | detach (e : Entity)
  | remove (e : Entity)

/-- The hierarchy after a change. -/
def apply (h : Hierarchy) : Change → Hierarchy
  | .addRoot e => h.addRoot e
  | .addChild parent child => h.addChild parent child
  | .detach e => h.detach e
  | .remove e => h.remove e

/-- The hierarchy after changes made in turn. -/
def run (h : Hierarchy) (changes : List Change) : Hierarchy :=
  changes.foldl apply h

/-- The entity at which so many steps to the parent end; a root has no further step. -/
def climb (h : Hierarchy) : Nat → Entity → Entity
  | 0, e => e
  | n + 1, e =>
    match h.parent? e with
    | none => e
    | some p => h.climb n p

section Views

theorem contains_eq_isSome
    (h : Hierarchy) (e : Entity) :
    h.contains e = (h.nodes[e]?).isSome :=
  Std.HashMap.contains_eq_isSome_getElem?

theorem contains_of_parent?
    (hp : h.parent? c = some p) :
    h.contains c = true := by
  obtain ⟨node, hnode, _⟩ := Option.bind_eq_some_iff.1 hp
  rw [contains_eq_isSome, hnode]
  rfl

theorem get?_of_contains_eq_false
    (he : h.contains e = false) :
    h.nodes[e]? = none := by
  rwa [contains_eq_isSome, Option.isSome_eq_false_iff, Option.isNone_iff_eq_none] at he

theorem parent?_of_contains_eq_false
    (he : h.contains e = false) :
    h.parent? e = none := by
  rw [parent?, get?_of_contains_eq_false he]
  rfl

theorem addRoot_of_contains
    (he : h.contains e = true) :
    h.addRoot e = h :=
  if_pos he

theorem nodes_addRoot
    (he : h.contains e = false)
    (f : Entity) :
    (h.addRoot e).nodes[f]? = if f = e then some {} else h.nodes[f]? := by
  rw [addRoot, if_neg (by simpa [contains] using he), Std.HashMap.getElem?_insert]
  simp only [beq_iff_eq, eq_comm (b := f)]

theorem parent?_addRoot
    (h : Hierarchy) (e f : Entity) :
    (h.addRoot e).parent? f = h.parent? f := by
  cases he : h.contains e with
  | true => rw [addRoot_of_contains he]
  | false =>
      rw [parent?, nodes_addRoot he, parent?]
      split
      · next hf => rw [hf, get?_of_contains_eq_false he]; rfl
      · rfl

theorem children_addRoot
    (h : Hierarchy) (e f : Entity) :
    (h.addRoot e).children f = h.children f := by
  cases he : h.contains e with
  | true => rw [addRoot_of_contains he]
  | false =>
      rw [children, nodes_addRoot he, children]
      split
      · next hf => rw [hf, get?_of_contains_eq_false he]; rfl
      · rfl

theorem contains_addRoot
    (h : Hierarchy) (e f : Entity) :
    (h.addRoot e).contains f = true ↔ f = e ∨ h.contains f = true := by
  cases he : h.contains e with
  | true =>
      rw [addRoot_of_contains he]
      exact ⟨Or.inr, fun hf => hf.elim (fun hf => hf ▸ he) id⟩
  | false =>
      rw [contains_eq_isSome, nodes_addRoot he, contains_eq_isSome]
      by_cases hf : f = e <;> simp [hf]

theorem roots_addRoot
    (h : Hierarchy) (e : Entity) :
    (h.addRoot e).roots = h.roots ++ if h.contains e then [] else [e] := by
  cases he : h.contains e with
  | true => simp [addRoot_of_contains he]
  | false => simp [addRoot, show h.nodes.contains e = false from he]

theorem detach_of_parent?_eq_none
    (hp : h.parent? e = none) :
    h.detach e = h := by
  rw [detach, hp]

theorem nodes_detach
    (hp : h.parent? e = some p)
    (f : Entity) :
    (h.detach e).nodes[f]? = (h.nodes[f]?).map fun node =>
      { parent := if f = e then none else node.parent
        children := if f = p then node.children.filter (· ≠ e) else node.children } := by
  rw [detach, hp]
  simp only [Std.HashMap.getElem?_modify, beq_iff_eq]
  by_cases hf : p = f <;> by_cases he : e = f
  · subst hf he
    simp [Function.comp_def]
  · subst hf
    simp [he, Ne.symm he]
  · subst he
    simp [hf, Ne.symm hf]
  · simp [hf, he, Ne.symm hf, Ne.symm he]

theorem parent?_detach
    (h : Hierarchy) (e f : Entity) :
    (h.detach e).parent? f = if f = e then none else h.parent? f := by
  cases hp : h.parent? e with
  | none =>
      rw [detach_of_parent?_eq_none hp]
      split
      · next hf => rw [hf, hp]
      · rfl
  | some p =>
      rw [parent?, nodes_detach hp, Option.bind_map, parent?]
      cases h.nodes[f]? <;> simp

theorem children_detach
    (h : Hierarchy) (e f : Entity) :
    (h.detach e).children f =
      if h.parent? e = some f then (h.children f).filter (· ≠ e) else h.children f := by
  cases hp : h.parent? e with
  | none =>
      rw [detach_of_parent?_eq_none hp, if_neg (by simp)]
  | some p =>
      rw [children, nodes_detach hp, Option.map_map, children]
      simp only [Option.some.injEq, eq_comm (a := p)]
      cases h.nodes[f]? with
      | none => simp
      | some node => rfl

theorem contains_detach
    (h : Hierarchy) (e f : Entity) :
    (h.detach e).contains f = h.contains f := by
  cases hp : h.parent? e with
  | none => rw [detach_of_parent?_eq_none hp]
  | some p => rw [contains_eq_isSome, nodes_detach hp, Option.isSome_map, contains_eq_isSome]

theorem roots_detach
    (h : Hierarchy) (e : Entity) :
    (h.detach e).roots = h.roots ++ if (h.parent? e).isSome then [e] else [] := by
  cases hp : h.parent? e with
  | none => simp [detach_of_parent?_eq_none hp]
  | some p => simp [detach, hp]

/-- The hierarchy with a root put below another entity. -/
def attached (h : Hierarchy) (parent child : Entity) : Hierarchy where
  nodes := (h.nodes.alter child fun node =>
      some { node.getD {} with parent := some parent }).modify parent fun node =>
    { node with children := node.children ++ [child] }
  roots := h.roots.filter (· ≠ child)

theorem addChild_eq
    (h : Hierarchy) (parent child : Entity) :
    h.addChild parent child =
      if (h.subtree child).contains parent then h
      else ((h.addRoot parent).detach child).attached parent child :=
  rfl

theorem nodes_attached
    (h : Hierarchy) (hne : child ≠ parent) (f : Entity) :
    (h.attached parent child).nodes[f]? =
      if f = child then some { (h.nodes[child]?).getD {} with parent := some parent }
      else if f = parent then (h.nodes[parent]?).map fun node =>
        { node with children := node.children ++ [child] }
      else h.nodes[f]? := by
  simp only [attached, Std.HashMap.getElem?_modify, Std.HashMap.getElem?_alter, beq_iff_eq,
    eq_comm (b := f)]
  split <;> split <;> simp_all

theorem parent?_attached
    (h : Hierarchy) (hne : child ≠ parent) (f : Entity) :
    (h.attached parent child).parent? f = if f = child then some parent else h.parent? f := by
  rw [parent?, nodes_attached h hne]
  split
  · rfl
  · split
    · next hf =>
      rw [hf, Option.bind_map]
      rfl
    · rfl

theorem children_attached
    (hne : child ≠ parent)
    (hparent : h.contains parent = true)
    (f : Entity) :
    (h.attached parent child).children f =
      if f = parent then h.children f ++ [child] else h.children f := by
  rw [contains_eq_isSome] at hparent
  obtain ⟨node, hnode⟩ := Option.isSome_iff_exists.1 hparent
  rw [children, nodes_attached h hne]
  by_cases hf : f = parent
  · subst hf
    simp [children, hnode, hne.symm]
  · rw [if_neg hf, if_neg hf]
    by_cases hfc : f = child
    · subst hfc
      cases hn : h.nodes[f]? <;> simp [children, hn]
    · simp [hfc, children]

theorem contains_attached
    (h : Hierarchy) (hne : child ≠ parent) (f : Entity) :
    (h.attached parent child).contains f = true ↔ f = child ∨ h.contains f = true := by
  rw [contains_eq_isSome, contains_eq_isSome, nodes_attached h hne]
  by_cases hf : f = child
  · simp [hf]
  · by_cases hfp : f = parent
    · subst hfp
      simp [hf]
    · simp [hf, hfp]

theorem roots_attached :
    (h.attached parent child).roots = h.roots.filter (· ≠ child) :=
  rfl

/-- The hierarchy without the listed entities, one of which was a root. -/
def erased (h : Hierarchy) (es : List Entity) (root : Entity) : Hierarchy where
  nodes := es.foldl (fun nodes e => nodes.erase e) h.nodes
  roots := h.roots.filter (· ≠ root)

theorem remove_eq
    (h : Hierarchy) (e : Entity) :
    h.remove e = (h.detach e).erased ((h.detach e).subtree e) e :=
  rfl

theorem nodes_erased
    (h : Hierarchy) (es : List Entity) (root f : Entity) :
    (h.erased es root).nodes[f]? = if f ∈ es then none else h.nodes[f]? := by
  rw [erased]
  induction es generalizing h with
  | nil =>
      rfl
  | cons e es ih =>
      have hrest := ih ⟨h.nodes.erase e, h.roots⟩
      rw [Std.HashMap.getElem?_erase] at hrest
      rw [List.foldl_cons, hrest]
      by_cases hf : f = e
      · simp [hf]
      · simp [hf, Ne.symm hf]

theorem parent?_erased
    (h : Hierarchy) (es : List Entity) (root f : Entity) :
    (h.erased es root).parent? f = if f ∈ es then none else h.parent? f := by
  rw [parent?, nodes_erased]
  split <;> rfl

theorem children_erased
    (h : Hierarchy) (es : List Entity) (root f : Entity) :
    (h.erased es root).children f = if f ∈ es then [] else h.children f := by
  rw [children, nodes_erased]
  split <;> rfl

theorem contains_erased
    (h : Hierarchy) (es : List Entity) (root f : Entity) :
    (h.erased es root).contains f = true ↔ f ∉ es ∧ h.contains f = true := by
  rw [contains_eq_isSome, nodes_erased, contains_eq_isSome]
  by_cases hf : f ∈ es <;> simp [hf]

theorem roots_erased
    {es : List Entity} {root : Entity} :
    (h.erased es root).roots = h.roots.filter (· ≠ root) :=
  rfl

end Views

section Forest

theorem count_filter_ne
    (l : List Entity) (e f : Entity) :
    (l.filter (· ≠ e)).count f = if f = e then 0 else l.count f := by
  split
  · next hf =>
    rw [hf, List.count_eq_zero]
    simp
  · next hf => exact List.count_filter (by simpa using hf)

/-- The three views of a hierarchy agree, and nothing is above itself. -/
structure Forest (h : Hierarchy) : Prop where
  count_children : ∀ p c, (h.children p).count c = if h.parent? c = some p then 1 else 0
  contains_parent : ∀ c p, h.parent? c = some p → h.contains p = true
  count_roots : ∀ e, h.roots.count e = if h.contains e = true ∧ h.parent? e = none then 1 else 0
  /-- No way from parent to parent is endless. -/
  grounded : ∀ e, Acc (fun p c => h.parent? c = some p) e

theorem forest_empty :
    (∅ : Hierarchy).Forest := by
  have hnodes : ∀ e, (∅ : Hierarchy).nodes[e]? = none := fun _ => Std.HashMap.getElem?_empty
  have hparent : ∀ e, (∅ : Hierarchy).parent? e = none := fun e => by rw [parent?, hnodes]; rfl
  have hchildren : ∀ e, (∅ : Hierarchy).children e = [] := fun e => by rw [children, hnodes]; rfl
  refine ⟨fun p c => ?_, fun c p hp => ?_, fun e => ?_, fun e => ⟨e, fun p hp => ?_⟩⟩
  · rw [hchildren, hparent]
    rfl
  · rw [hparent] at hp
    cases hp
  · rw [contains_eq_isSome, hnodes]
    rfl
  · rw [hparent] at hp
    cases hp

theorem Forest.mem_children_iff
    (hf : h.Forest) :
    c ∈ h.children p ↔ h.parent? c = some p := by
  rw [← List.count_pos_iff, hf.count_children]
  split <;> simp_all

theorem Forest.mem_roots_iff
    (hf : h.Forest) :
    e ∈ h.roots ↔ h.contains e = true ∧ h.parent? e = none := by
  rw [← List.count_pos_iff, hf.count_roots]
  split <;> simp_all

/-- Links that were there before lead nowhere that they did not lead before. -/
theorem Forest.grounded_of_parent?
    {later : Hierarchy}
    (hf : h.Forest)
    (hparent : ∀ c p, later.parent? c = some p → h.parent? c = some p)
    (e : Entity) :
    Acc (fun p c => later.parent? c = some p) e :=
  Subrelation.accessible (hparent _ _) (hf.grounded e)

theorem Forest.addRoot
    (hf : h.Forest)
    (e : Entity) :
    (h.addRoot e).Forest := by
  cases he : h.contains e with
  | true => rwa [addRoot_of_contains he]
  | false =>
      have hfree : h.parent? e = none := parent?_of_contains_eq_false he
      have hold : ∀ c p, (h.addRoot e).parent? c = some p → h.parent? c = some p :=
        fun c p hp => (parent?_addRoot h e c).symm.trans hp
      refine ⟨fun p c => ?_, fun c p hp => ?_, fun f => ?_, hf.grounded_of_parent? hold⟩
      · rw [children_addRoot, parent?_addRoot]
        exact hf.count_children p c
      · exact (contains_addRoot h e p).2 (Or.inr (hf.contains_parent c p (hold c p hp)))
      · rw [roots_addRoot, List.count_append, hf.count_roots, parent?_addRoot]
        simp only [contains_addRoot, he]
        by_cases hfe : f = e
        · simp [hfe, he, hfree]
        · simp [hfe, Ne.symm hfe]

theorem Forest.detach
    (hf : h.Forest)
    (e : Entity) :
    (h.detach e).Forest := by
  have hold : ∀ c p, (h.detach e).parent? c = some p → h.parent? c = some p := by
    intro c p hp
    rw [parent?_detach] at hp
    split at hp
    · cases hp
    · exact hp
  refine ⟨fun p c => ?_, fun c p hp => ?_, fun f => ?_, hf.grounded_of_parent? hold⟩
  · rw [children_detach, parent?_detach]
    by_cases hc : c = e
    · rw [if_pos hc, if_neg (Option.some_ne_none p).symm]
      by_cases hp : h.parent? e = some p
      · rw [if_pos hp, count_filter_ne, if_pos hc]
      · rw [if_neg hp, hf.count_children, hc, if_neg hp]
    · rw [if_neg hc, ← hf.count_children]
      by_cases hp : h.parent? e = some p
      · rw [if_pos hp, count_filter_ne, if_neg hc]
      · rw [if_neg hp]
  · exact (contains_detach h e p).trans (hf.contains_parent c p (hold c p hp))
  · rw [roots_detach, List.count_append, hf.count_roots, parent?_detach]
    simp only [contains_detach]
    by_cases hfe : f = e
    · subst hfe
      cases hp : h.parent? f with
      | none => simp
      | some p => simp [contains_of_parent? hp]
    · cases h.parent? e <;> simp [hfe, Ne.symm hfe]

/--
What is not below the new child has the way up that it had.  The child goes on from its new parent,
which is not below it, and everything else arrives at the child or at a root.
-/
theorem Forest.grounded_attached
    (hf : h.Forest)
    (hne : child ≠ parent)
    (hapart : ¬ h.relation.Reaches child parent)
    (e : Entity) :
    Acc (fun p c => (h.attached parent child).parent? c = some p) e := by
  have houtside : ∀ e, ¬ h.relation.Reaches child e →
      Acc (fun p c => (h.attached parent child).parent? c = some p) e := by
    intro e
    induction hf.grounded e with
    | intro e _ ih =>
        intro he
        refine ⟨e, fun p hp => ?_⟩
        have hec : e ≠ child := fun hec => he (hec ▸ .refl)
        rw [parent?_attached h hne, if_neg hec] at hp
        exact ih p hp fun hp' => he (hp'.tail (hf.mem_children_iff.2 hp))
  have hchild : Acc (fun p c => (h.attached parent child).parent? c = some p) child := by
    refine ⟨child, fun p hp => ?_⟩
    rw [parent?_attached h hne, if_pos rfl, Option.some.injEq] at hp
    exact hp ▸ houtside parent hapart
  induction hf.grounded e with
  | intro e _ ih =>
      by_cases hec : e = child
      · exact hec ▸ hchild
      · refine ⟨e, fun p hp => ih p ?_⟩
        rwa [parent?_attached h hne, if_neg hec] at hp

theorem Forest.attached
    (hf : h.Forest)
    (hparent : h.contains parent = true)
    (hfree : h.parent? child = none)
    (hapart : ¬ h.relation.Reaches child parent) :
    (h.attached parent child).Forest := by
  have hne : child ≠ parent := fun hne => hapart (hne ▸ .refl)
  refine ⟨fun p c => ?_, fun c p hp => ?_, fun e => ?_, hf.grounded_attached hne hapart⟩
  · have hcount := hf.count_children p c
    rw [children_attached hne hparent, parent?_attached h hne]
    by_cases hc : c = child
    · subst hc
      rw [hfree, if_neg (Option.some_ne_none p).symm] at hcount
      by_cases hp : p = parent
      · simp [hp, hp ▸ hcount]
      · simp [hp, Ne.symm hp, hcount]
    · rw [if_neg hc, ← hcount]
      by_cases hp : p = parent
      · simp [hp, Ne.symm hc]
      · simp [hp]
  · rw [parent?_attached h hne] at hp
    refine (contains_attached h hne p).2 (Or.inr ?_)
    split at hp
    · exact Option.some.inj hp ▸ hparent
    · exact hf.contains_parent c p hp
  · have hcount := hf.count_roots e
    rw [roots_attached, count_filter_ne, hcount, parent?_attached h hne]
    simp only [contains_attached h hne]
    by_cases he : e = child <;> simp [he]

theorem Forest.addChild
    (hf : h.Forest)
    (parent child : Entity) :
    (h.addChild parent child).Forest := by
  rw [addChild_eq]
  split
  · exact hf
  · next hguard =>
    refine ((hf.addRoot parent).detach child).attached ?_ ?_ fun hreach => hguard ?_
    · rw [contains_detach]
      exact (contains_addRoot h parent parent).2 (Or.inl rfl)
    · rw [parent?_detach, if_pos rfl]
    · -- the way down from the child was there before the parent was added and the child cut off
      have hold : ∀ p c, c ∈ ((h.addRoot parent).detach child).children p → c ∈ h.children p := by
        intro p c hc
        rw [children_detach, children_addRoot] at hc
        split at hc
        · exact (List.mem_filter.1 hc).1
        · exact hc
      rw [List.contains_iff_mem]
      exact ChildRelation.mem_subtree_iff.2 (Relation.ReflTransGen.mono hold child parent hreach)

theorem Forest.exists_parent?_of_mem_subtree
    (hf : h.Forest)
    (hmem : c ∈ h.subtree e)
    (hne : c ≠ e) :
    ∃ p ∈ h.subtree e, h.parent? c = some p := by
  rcases (ChildRelation.mem_subtree_iff.1 hmem).cases_tail with rfl | ⟨p, hp, hc⟩
  · exact absurd rfl hne
  · exact ⟨p, ChildRelation.mem_subtree_iff.2 hp, hf.mem_children_iff.1 hc⟩

/-- No link leads out of the subtree of a root or into it. -/
theorem Forest.mem_subtree_iff_of_parent?
    (hf : h.Forest)
    (hroot : h.parent? e = none)
    (hp : h.parent? c = some p) :
    c ∈ h.subtree e ↔ p ∈ h.subtree e := by
  constructor
  · intro hmem
    have hne : c ≠ e := fun hne => Option.some_ne_none p (hp.symm.trans (hne ▸ hroot))
    obtain ⟨q, hq, hcq⟩ := hf.exists_parent?_of_mem_subtree hmem hne
    exact Option.some.inj (hcq.symm.trans hp) ▸ hq
  · intro hmem
    exact ChildRelation.mem_subtree_iff.2
      ((ChildRelation.mem_subtree_iff.1 hmem).tail (hf.mem_children_iff.2 hp))

theorem Forest.erased
    (hf : h.Forest)
    (hroot : h.parent? e = none) :
    (h.erased (h.subtree e) e).Forest := by
  have hself : e ∈ h.subtree e := ChildRelation.mem_subtree_iff.2 .refl
  have hold : ∀ c p, (h.erased (h.subtree e) e).parent? c = some p →
      c ∉ h.subtree e ∧ h.parent? c = some p := by
    intro c p hp
    rw [parent?_erased] at hp
    split at hp
    · cases hp
    · next hc => exact ⟨hc, hp⟩
  refine ⟨fun p c => ?_, fun c p hp => ?_, fun f => ?_,
    hf.grounded_of_parent? fun c p hp => (hold c p hp).2⟩
  · rw [children_erased, parent?_erased]
    by_cases hlink : h.parent? c = some p
    · have hmem := hf.mem_subtree_iff_of_parent? hroot hlink
      by_cases hc : c ∈ h.subtree e
      · rw [if_pos hc, if_pos (hmem.1 hc)]
        rfl
      · rw [if_neg hc, if_neg fun hp => hc (hmem.2 hp)]
        exact hf.count_children p c
    · have hcount := hf.count_children p c
      rw [if_neg hlink] at hcount
      by_cases hc : c ∈ h.subtree e <;> by_cases hp : p ∈ h.subtree e <;> simp [*]
  · obtain ⟨hc, hp⟩ := hold c p hp
    exact (contains_erased h _ e p).2 ⟨fun hmem =>
      hc ((hf.mem_subtree_iff_of_parent? hroot hp).2 hmem), hf.contains_parent c p hp⟩
  · rw [roots_erased, count_filter_ne, hf.count_roots, parent?_erased]
    simp only [contains_erased]
    by_cases hfe : f = e
    · simp [hfe, hself]
    · by_cases hmem : f ∈ h.subtree e
      · obtain ⟨p, _, hp⟩ := hf.exists_parent?_of_mem_subtree hmem hfe
        simp [hfe, hmem, hp]
      · simp [hfe, hmem]

theorem Forest.remove
    (hf : h.Forest)
    (e : Entity) :
    (h.remove e).Forest := by
  rw [remove_eq]
  exact (hf.detach e).erased (by rw [parent?_detach, if_pos rfl])

theorem Forest.apply
    (hf : h.Forest)
    (change : Change) :
    (h.apply change).Forest := by
  cases change with
  | addRoot e => exact hf.addRoot e
  | addChild parent child => exact hf.addChild parent child
  | detach e => exact hf.detach e
  | remove e => exact hf.remove e

theorem Forest.run
    (hf : h.Forest)
    (changes : List Change) :
    (h.run changes).Forest := by
  induction changes generalizing h with
  | nil => exact hf
  | cons change changes ih => exact ih (hf.apply change)

theorem Forest.exists_climb_mem_roots
    (hf : h.Forest)
    (he : h.contains e = true) :
    ∃ n, h.climb n e ∈ h.roots := by
  induction hf.grounded e with
  | intro e _ ih =>
      cases hp : h.parent? e with
      | none => exact ⟨0, hf.mem_roots_iff.2 ⟨he, hp⟩⟩
      | some p =>
          obtain ⟨n, hn⟩ := ih p hp (hf.contains_parent e p hp)
          refine ⟨n + 1, ?_⟩
          rwa [climb, hp]

/--
After every sequence of changes an entity lists exactly its children, each of them once; parents
and children are known; the roots are exactly the known entities without a parent, each of them
once; and from every known entity the steps to the parent end at a root.
-/
theorem forest_run
    (changes : List Change) :
    let h := (∅ : Hierarchy).run changes
    (∀ c p, h.parent? c = some p ↔ c ∈ h.children p) ∧
      (∀ p, (h.children p).Nodup) ∧
      (∀ c p, h.parent? c = some p → h.contains c = true ∧ h.contains p = true) ∧
      (∀ e, e ∈ h.roots ↔ h.contains e = true ∧ h.parent? e = none) ∧
      h.roots.Nodup ∧
      ∀ e, h.contains e = true → ∃ n, h.climb n e ∈ h.roots := by
  have hf : ((∅ : Hierarchy).run changes).Forest := forest_empty.run changes
  refine ⟨fun c p => hf.mem_children_iff.symm, fun p => List.nodup_iff_count.2 fun c => ?_,
    fun c p hp => ⟨contains_of_parent? hp, hf.contains_parent c p hp⟩,
    fun e => hf.mem_roots_iff, List.nodup_iff_count.2 fun e => ?_,
    fun e he => hf.exists_climb_mem_roots he⟩
  · rw [hf.count_children]
    split <;> decide
  · rw [hf.count_roots]
    split <;> decide

end Forest

end Hierarchy
end LinearLayout
