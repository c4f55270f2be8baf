import Std.Data.HashMap
import LinearLayout.Hierarchy.Subtree

/-!
# Hierarchies of entities

A hierarchy is a forest: every entity in it has at most one parent, and nothing is below itself.
Parents, lists of children and the list of roots say the same thing three times, so that each can
be looked up directly.
-/

namespace LinearLayout

/-- What a hierarchy knows of one entity. -/
structure Node where
  parent : Option Entity := none
  children : List Entity := []
deriving Inhabited

/-- A forest of entities. -/
structure Hierarchy where
  nodes : Std.HashMap Entity Node
  /-- The entities without a parent, in the order in which they became roots. -/
  roots : List Entity

namespace ChildRelation

/-- The relation that a table lists; other entities have no children. -/
def ofTable (table : Std.HashMap Entity (List Entity)) : ChildRelation where
  children e := table.getD e []
  finite := by
    refine ⟨table.keys, fun e he => ?_⟩
    rw [Std.HashMap.mem_keys]
    refine Classical.byContradiction fun h => he ?_
    exact Std.HashMap.getD_eq_fallback h

end ChildRelation

namespace Hierarchy

/-- The hierarchy without entities. -/
def empty : Hierarchy :=
  ⟨∅, []⟩

instance : EmptyCollection Hierarchy :=
  ⟨empty⟩

/-- True if the entity is part of the hierarchy. -/
def contains (h : Hierarchy) (e : Entity) : Bool :=
  h.nodes.contains e

/-- The number of entities. -/
def size (h : Hierarchy) : Nat :=
  h.nodes.size

/-- True of the hierarchy without entities. -/
def isEmpty (h : Hierarchy) : Bool :=
  h.nodes.isEmpty

/-- The parent of an entity. -/
def parent? (h : Hierarchy) (e : Entity) : Option Entity :=
  (h.nodes[e]?).bind Node.parent

/-- The children of an entity, in order. -/
def children (h : Hierarchy) (e : Entity) : List Entity :=
  ((h.nodes[e]?).map Node.children).getD []

/-- The child relation of a hierarchy. -/
def relation (h : Hierarchy) : ChildRelation where
  children := h.children
  finite := by
    refine ⟨h.nodes.keys, fun e he => ?_⟩
    rw [Std.HashMap.mem_keys]
    refine Classical.byContradiction fun hmem => he ?_
    rw [children, Std.HashMap.getElem?_eq_none hmem]
    rfl

/-- An entity and everything below it, in depth-first preorder. -/
def subtree (h : Hierarchy) (e : Entity) : List Entity :=
  h.relation.subtree e

/-- Adds an entity without a parent unless it is known. -/
def addRoot (h : Hierarchy) (e : Entity) : Hierarchy :=
  if h.nodes.contains e then h
  else
    { nodes := h.nodes.insert e {}
      roots := h.roots ++ [e] }

/-- Cuts an entity from its parent and makes it a root; what is below it stays below it. -/
def detach (h : Hierarchy) (e : Entity) : Hierarchy :=
  match h.parent? e with
  | none => h
  | some p =>
    { nodes := (h.nodes.modify e fun node => { node with parent := none }).modify p fun node =>
        { node with children := node.children.filter (· ≠ e) }
      roots := h.roots ++ [e] }

/--
Puts an entity below another, taking it away from where it was.  Nothing is put below itself or
below what is below it.
-/
def addChild (h : Hierarchy) (parent child : Entity) : Hierarchy :=
  if (h.subtree child).contains parent then h
  else
    let h := (h.addRoot parent).detach child
    { nodes := (h.nodes.alter child fun node =>
          some { node.getD {} with parent := some parent }).modify parent fun node =>
        { node with children := node.children ++ [child] }
      roots := h.roots.filter (· ≠ child) }

/-- Forgets an entity and everything below it. -/
def remove (h : Hierarchy) (e : Entity) : Hierarchy :=
  let h := h.detach e
  { nodes := (h.subtree e).foldl (fun nodes e => nodes.erase e) h.nodes
    roots := h.roots.filter (· ≠ e) }

/-- Adds pairs of a parent and a child in turn. -/
def ofEdges (edges : List (Entity × Entity)) : Hierarchy :=
  edges.foldl (fun h e => h.addChild e.1 e.2) ∅

end Hierarchy
end LinearLayout
