import LinearLayout.Proofs.Hierarchy.Reachable

/-!
# Subtrees as recursive searches

A recursive depth-first search explores entities in turn: one that was found before is passed
over, any other is found, and its children are explored before the next entity is.  `Explores`
is this recursion as a relation between what was found before and what is found afterwards.

The search of a subtree keeps a stack instead, on which an entity may wait several times.  It finds
the same entities in the same order: exploring a concatenation is exploring its parts in turn, so
the children that a visit puts on top of the stack are explored before the rest of the stack.
-/

namespace LinearLayout
namespace ChildRelation

variable {r : ChildRelation} {root e : Entity} {seen : Std.HashSet Entity}
  {visited stack front back found middle result result' : List Entity}

/-- The recursive search of entities in turn, from what was found before to what is found then. -/
inductive Explores (r : ChildRelation) : List Entity → List Entity → List Entity → Prop
  | done
      {found : List Entity} :
      Explores r found [] found
  | skip
      {found rest result : List Entity}
      {e : Entity}
      (hfound : e ∈ found)
      (hrest : Explores r found rest result) :
      Explores r found (e :: rest) result
  | enter
      {found rest below result : List Entity}
      {e : Entity}
      (hnew : e ∉ found)
      (hbelow : Explores r (found ++ [e]) (r.children e) below)
      (hrest : Explores r below rest result) :
      Explores r found (e :: rest) result

namespace Explores

/-- A search has one result. -/
theorem unique
    (h : r.Explores found stack result)
    (h' : r.Explores found stack result') :
    result = result' := by
  induction h generalizing result' with
  | done =>
      cases h' with
      | done => rfl
  | skip hfound _ ih =>
      cases h' with
      | skip _ hrest' => exact ih hrest'
      | enter hnew' _ _ => exact absurd hfound hnew'
  | enter hnew _ _ ihbelow ihrest =>
      cases h' with
      | skip hfound' _ => exact absurd hfound' hnew
      | enter _ hbelow' hrest' =>
          obtain rfl := ihbelow hbelow'
          exact ihrest hrest'

/-- Exploring two lists as one is exploring them one after the other. -/
theorem exists_of_append
    (h : r.Explores found (front ++ back) result) :
    ∃ middle, r.Explores found front middle ∧ r.Explores middle back result := by
  generalize hlist : front ++ back = list at h
  induction h generalizing front with
  | done =>
      obtain ⟨rfl, rfl⟩ := List.append_eq_nil_iff.1 hlist
      exact ⟨_, .done, .done⟩
  | skip hfound hrest ih =>
      cases front with
      | nil =>
          rw [List.nil_append] at hlist
          subst hlist
          exact ⟨_, .done, .skip hfound hrest⟩
      | cons f front =>
          rw [List.cons_append, List.cons.injEq] at hlist
          obtain ⟨rfl, hlist⟩ := hlist
          obtain ⟨middle, hfront, hback⟩ := ih hlist
          exact ⟨middle, .skip hfound hfront, hback⟩
  | enter hnew hbelow hrest _ ihrest =>
      cases front with
      | nil =>
          rw [List.nil_append] at hlist
          subst hlist
          exact ⟨_, .done, .enter hnew hbelow hrest⟩
      | cons f front =>
          rw [List.cons_append, List.cons.injEq] at hlist
          obtain ⟨rfl, hlist⟩ := hlist
          obtain ⟨middle, hfront, hback⟩ := ihrest hlist
          exact ⟨middle, .enter hnew hbelow hfront, hback⟩

/-- A search finds nothing twice. -/
theorem nodup
    (h : r.Explores found stack result)
    (hfound : found.Nodup) :
    result.Nodup := by
  induction h with
  | done => exact hfound
  | skip _ _ ih => exact ih hfound
  | enter hnew _ _ ihbelow ihrest =>
      refine ihrest (ihbelow ?_)
      rw [List.nodup_append]
      refine ⟨hfound, by simp, fun x hx y hy hxy => ?_⟩
      rw [List.mem_singleton] at hy
      exact hnew (hy ▸ hxy ▸ hx)

end Explores

/-- The search with a stack is the recursive search of what is on the stack. -/
theorem explores_visit
    (hseen : ∀ e, seen.contains e = true ↔ e ∈ visited) :
    r.Explores visited.reverse stack (r.visit seen visited stack) := by
  fun_induction visit r seen visited stack with
  | case1 seen visited =>
      exact .done
  | case2 seen visited e stack he ih =>
      exact .skip (List.mem_reverse.2 ((hseen e).1 he)) (ih hseen)
  | case3 seen visited e stack he ih =>
      have hnew : e ∉ visited.reverse := by
        rw [List.mem_reverse, ← hseen]
        exact he
      have hseen' : ∀ f, (seen.insert e).contains f = true ↔ f ∈ e :: visited := by
        intro f
        rw [Std.HashSet.contains_insert, Bool.or_eq_true, hseen, List.mem_cons, beq_iff_eq,
          eq_comm]
      -- The children lie on top of the stack, so they are explored before the rest of it.
      obtain ⟨below, hbelow, hrest⟩ := (ih hseen').exists_of_append
      rw [List.reverse_cons] at hbelow
      exact .enter hnew hbelow hrest

theorem explores_subtree
    (r : ChildRelation) (root : Entity) :
    r.Explores [] [root] (r.subtree root) := by
  have hnothing : ∀ e : Entity, (∅ : Std.HashSet Entity).contains e = true ↔
      e ∈ ([] : List Entity) := by
    simp
  exact explores_visit hnothing

/--
The subtree of an entity is the one result of the recursive depth-first search that visits
children in order and passes over what it has found.  It lists the entities that the root reaches,
each once.  The child relation is any with finitely many parents: those of tables and of
hierarchies are, with cycles, shared children and repeated children.
-/
theorem subtree_preorder
    (r : ChildRelation) (root : Entity) :
    (∀ found, r.Explores [] [root] found ↔ found = r.subtree root) ∧
      (r.subtree root).Nodup ∧
      ∀ e, e ∈ r.subtree root ↔ r.Reaches root e := by
  have hsubtree := explores_subtree r root
  refine ⟨fun found => ⟨fun h => h.unique hsubtree, ?_⟩, hsubtree.nodup List.nodup_nil,
    fun e => mem_subtree_iff⟩
  rintro rfl
  exact hsubtree

end ChildRelation
end LinearLayout
