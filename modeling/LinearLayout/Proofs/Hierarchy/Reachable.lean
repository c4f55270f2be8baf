import Mathlib.Logic.Relation
import LinearLayout.Hierarchy.Subtree

/-!
# Subtrees and reachability

The search of a subtree keeps a stack of entities that are still to be visited.  Whatever is
visited or waiting is reachable from the root, and once nothing is waiting the visited entities are
closed under children.  So a subtree consists of the entities that are reachable from its root,
whether or not the child relation is a tree.
-/

namespace LinearLayout
namespace ChildRelation

variable {r : ChildRelation} {root e : Entity} {seen : Std.HashSet Entity}
  {visited stack : List Entity}

/-- The second entity is the first one or lies below it. -/
def Reaches (r : ChildRelation) : Entity → Entity → Prop :=
  Relation.ReflTransGen fun parent child => child ∈ r.children parent

/-- What holds of the visited, of the waiting and of all children holds of all that is found. -/
theorem forall_mem_visit
    {P : Entity → Prop}
    (hchildren : ∀ parent, P parent → ∀ child ∈ r.children parent, P child)
    (hvisited : ∀ e ∈ visited, P e)
    (hstack : ∀ e ∈ stack, P e) :
    ∀ e ∈ r.visit seen visited stack, P e := by
  fun_induction visit r seen visited stack with
  | case1 seen visited =>
      exact fun e he => hvisited e (List.mem_reverse.1 he)
  | case2 seen visited e stack hseen ih =>
      exact ih hvisited fun f hf => hstack f (List.mem_cons_of_mem e hf)
  | case3 seen visited e stack hseen ih =>
      have he := hstack e List.mem_cons_self
      refine ih (List.forall_mem_cons.2 ⟨he, hvisited⟩) fun f hf => ?_
      rcases List.mem_append.1 hf with hf | hf
      · exact hchildren e he f hf
      · exact hstack f (List.mem_cons_of_mem e hf)

/-- The visited entities are those that were seen, and their children are visited or waiting. -/
structure Frontier (r : ChildRelation) (seen : Std.HashSet Entity)
    (visited stack : List Entity) : Prop where
  seen : ∀ e, seen.contains e = true ↔ e ∈ visited
  closed : ∀ e ∈ visited, ∀ child ∈ r.children e, child ∈ visited ∨ child ∈ stack

theorem Frontier.skip
    (h : Frontier r seen visited (e :: stack))
    (he : seen.contains e = true) :
    Frontier r seen visited stack where
  seen := h.seen
  closed := by
    intro f hf child hchild
    rcases h.closed f hf child hchild with hold | hwaiting
    · exact Or.inl hold
    · rcases List.mem_cons.1 hwaiting with rfl | hwaiting
      · exact Or.inl ((h.seen child).1 he)
      · exact Or.inr hwaiting

theorem Frontier.visit
    (h : Frontier r seen visited (e :: stack)) :
    Frontier r (seen.insert e) (e :: visited) (r.children e ++ stack) where
  seen := by
    intro f
    rw [Std.HashSet.contains_insert, Bool.or_eq_true, h.seen, List.mem_cons, beq_iff_eq, eq_comm]
  closed := by
    intro f hf child hchild
    rcases List.mem_cons.1 hf with rfl | hf
    · exact Or.inr (List.mem_append_left _ hchild)
    · rcases h.closed f hf child hchild with hold | hwaiting
      · exact Or.inl (List.mem_cons_of_mem _ hold)
      · rcases List.mem_cons.1 hwaiting with rfl | hwaiting
        · exact Or.inl List.mem_cons_self
        · exact Or.inr (List.mem_append_right _ hwaiting)

/-- What is visited or waiting is found, and so are the children of all that is found. -/
theorem Frontier.found
    (h : Frontier r seen visited stack) :
    (∀ e, e ∈ visited ∨ e ∈ stack → e ∈ r.visit seen visited stack) ∧
      ∀ e ∈ r.visit seen visited stack, ∀ child ∈ r.children e,
        child ∈ r.visit seen visited stack := by
  fun_induction ChildRelation.visit r seen visited stack with
  | case1 seen visited =>
      refine ⟨fun e he => List.mem_reverse.2 (he.resolve_right List.not_mem_nil),
        fun e he child hchild => ?_⟩
      have hchild := h.closed e (List.mem_reverse.1 he) child hchild
      exact List.mem_reverse.2 (hchild.resolve_right List.not_mem_nil)
  | case2 seen visited e stack hseen ih =>
      obtain ⟨hall, hclosed⟩ := ih (h.skip hseen)
      refine ⟨fun f hf => ?_, hclosed⟩
      rcases hf with hf | hf
      · exact hall f (Or.inl hf)
      · rcases List.mem_cons.1 hf with rfl | hf
        · exact hall f (Or.inl ((h.seen f).1 hseen))
        · exact hall f (Or.inr hf)
  | case3 seen visited e stack hseen ih =>
      obtain ⟨hall, hclosed⟩ := ih h.visit
      refine ⟨fun f hf => ?_, hclosed⟩
      rcases hf with hf | hf
      · exact hall f (Or.inl (List.mem_cons_of_mem e hf))
      · rcases List.mem_cons.1 hf with rfl | hf
        · exact hall f (Or.inl List.mem_cons_self)
        · exact hall f (Or.inr (List.mem_append_right _ hf))

theorem frontier_root
    (r : ChildRelation) (root : Entity) :
    Frontier r ∅ [] [root] where
  seen := by simp
  closed := nofun

/-- A subtree consists of the entities that its root reaches. -/
theorem mem_subtree_iff :
    e ∈ r.subtree root ↔ r.Reaches root e := by
  obtain ⟨hall, hclosed⟩ := (frontier_root r root).found
  constructor
  · refine forall_mem_visit (P := r.Reaches root) (fun parent hparent child hchild => ?_)
      (List.forall_mem_nil _) (List.forall_mem_singleton.2 .refl) e
    exact hparent.tail hchild
  · intro h
    induction h with
    | refl => exact hall root (Or.inr List.mem_cons_self)
    | tail _ hchild ih => exact hclosed _ ih _ hchild

end ChildRelation
end LinearLayout
