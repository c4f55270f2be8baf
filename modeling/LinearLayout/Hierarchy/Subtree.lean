import Std.Data.HashSet
import LinearLayout.Variable

/-!
# Subtrees of a child relation

A child relation lists the children of every entity; only finitely many entities have any.  It
need not be a tree: entities may share children, repeat them, or be their own descendants.  The
subtree of an entity is its depth-first preorder, in which every entity occurs once.
-/

namespace LinearLayout

/-- The children of every entity, in order. -/
structure ChildRelation where
  children : Entity → List Entity
  /-- Only finitely many entities have children. -/
  finite : ∃ parents : List Entity, ∀ e, children e ≠ [] → e ∈ parents

namespace ChildRelation

/-- The number of listed entities that are not in a set. -/
def unseen (parents : List Entity) (seen : Std.HashSet Entity) : Nat :=
  parents.countP fun e => !seen.contains e

theorem unseen_insert_le
    (parents : List Entity) (seen : Std.HashSet Entity) (e : Entity) :
    unseen parents (seen.insert e) ≤ unseen parents seen := by
  apply List.countP_mono_left
  intro x _ hx
  simp_all

theorem unseen_insert_lt
    {parents : List Entity} {seen : Std.HashSet Entity} {e : Entity}
    (he : e ∈ parents)
    (hseen : seen.contains e = false) :
    unseen parents (seen.insert e) < unseen parents seen := by
  obtain ⟨before, after, rfl⟩ := List.append_of_mem he
  have hbefore := unseen_insert_le before seen e
  have hafter := unseen_insert_le after seen e
  have hnow : (seen.insert e).contains e = true := by simp
  simp only [unseen, List.countP_append, List.countP_cons, hseen, hnow] at hbefore hafter ⊢
  simp only [Bool.not_true, Bool.not_false, if_true, Bool.false_eq_true, if_false]
  omega

/-- The entities with children, as a list. -/
noncomputable def parents (r : ChildRelation) : List Entity :=
  Classical.choose r.finite

theorem mem_parents
    {r : ChildRelation} {e : Entity}
    (h : r.children e ≠ []) :
    e ∈ r.parents :=
  Classical.choose_spec r.finite e h

/--
Visits the entities of a stack and, after each that is visited for the first time, its children.
The entities visited so far are listed backwards.
-/
def visit (r : ChildRelation) (seen : Std.HashSet Entity) (visited : List Entity) :
    List Entity → List Entity
  | [] => visited.reverse
  | e :: stack =>
    if seen.contains e then r.visit seen visited stack
    else r.visit (seen.insert e) (e :: visited) (r.children e ++ stack)
termination_by stack => (unseen r.parents seen, stack.length)
decreasing_by
  · exact Prod.Lex.right _ (Nat.lt_succ_self _)
  · rename_i hseen
    by_cases he : r.children e = []
    · rcases Nat.lt_or_eq_of_le (unseen_insert_le r.parents seen e) with h | h
      · exact Prod.Lex.left _ _ h
      · rw [h, he]
        exact Prod.Lex.right _ (Nat.lt_succ_self _)
    · exact Prod.Lex.left _ _ (unseen_insert_lt (mem_parents he) (by simpa using hseen))

/-- An entity and everything below it, in depth-first preorder. -/
def subtree (r : ChildRelation) (root : Entity) : List Entity :=
  r.visit ∅ [] [root]

end ChildRelation
end LinearLayout
