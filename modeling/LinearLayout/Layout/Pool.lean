import LinearLayout.Layout.Join
import LinearLayout.Layout.Split

/-!
# Shared layouts

Several holders of one handle work on the same layout.  A pool keeps the layouts under their
handles; joining two handles empties the layout of the second one but leaves the handle usable.
-/

namespace LinearLayout

/-- The name of a shared layout. -/
structure Handle where
  index : Nat
deriving DecidableEq, Repr

/-- Layouts under their handles. -/
structure Pool (K : Type) [Scalar K] where
  layouts : OrderedMap Handle (Layout K)
  /-- The index of the next handle. -/
  next : Nat

namespace Pool

variable {K : Type} [Scalar K]

/-- The pool without layouts. -/
def empty : Pool K :=
  ⟨∅, 0⟩

instance : EmptyCollection (Pool K) :=
  ⟨empty⟩

/-- The layout of a handle. -/
def get? (p : Pool K) (h : Handle) : Option (Layout K) :=
  p.layouts.get? h

/-- Replaces the layout of a handle. -/
def set (p : Pool K) (h : Handle) (l : Layout K) : Pool K :=
  { p with layouts := p.layouts.insert h l }

/-- Puts a layout under a new handle. -/
def share (p : Pool K) (l : Layout K) : Handle × Pool K :=
  let h : Handle := ⟨p.next⟩
  (h, { layouts := p.layouts.insert h l, next := p.next + 1 })

/-- Splits the layout of a handle and shares the new part. -/
def split (p : Pool K) (h : Handle) (root : Entity) (tree : ChildRelation) :
    Option (Handle × Pool K) :=
  (p.get? h).map fun l =>
    let (rest, part) := l.split root tree
    (p.set h rest).share part

/--
Joins the layout of `source` into the one of `target`; `source` keeps an empty layout with its
settings.  A handle joined with itself changes nothing.
-/
def join (p : Pool K) (target source : Handle) : Option (List ConstraintId × Pool K) :=
  if target = source then some ([], p)
  else
    match p.get? target, p.get? source with
    | some l, some other =>
      let (rejected, joined) := l.join other
      some (rejected, (p.set source (.new other.settings)).set target joined)
    | _, _ => none

end Pool
end LinearLayout
