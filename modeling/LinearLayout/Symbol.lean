/-!
# Symbols of a tableau

A tableau is written in symbols.  Besides the unknowns of the layout there are slacks, which take
up the room that an inequality or a violated preference leaves, dummies, which stand for required
equalities and stay at zero, and the subjects of objective rows.
-/

namespace LinearLayout

/-- What a symbol stands for. -/
inductive Role where
  /-- An unknown of the layout, free in sign. -/
  | free
  /-- The room left by an inequality, or one direction of a violation. -/
  | slack
  /-- The place of a required equality, held at zero. -/
  | dummy
  /-- The subject of a row to be minimised. -/
  | objective
deriving DecidableEq, Repr

namespace Role

/-- The place of a role in the order of roles. -/
def rank : Role → Nat
  | .free => 0
  | .slack => 1
  | .dummy => 2
  | .objective => 3

theorem eq_of_rank_eq
    {a b : Role}
    (h : a.rank = b.rank) :
    a = b := by
  cases a <;> cases b <;> simp_all [rank]

end Role

/-- A numbered symbol; symbols with different numbers are different. -/
structure Symbol where
  index : Nat
  role : Role
deriving DecidableEq, Repr

namespace Symbol

/-- The subject of the row that adds up all violations. -/
def objective : Symbol :=
  ⟨0, .objective⟩

/-- True of the unknowns of the layout. -/
def isFree (s : Symbol) : Bool :=
  s.role == .free

/-- True of slacks. -/
def isSlack (s : Symbol) : Bool :=
  s.role == .slack

/-- True of dummies. -/
def isDummy (s : Symbol) : Bool :=
  s.role == .dummy

/-- True of the subjects of objective rows. -/
def isObjective (s : Symbol) : Bool :=
  s.role == .objective

/-- Restricted symbols never take a negative value. -/
def isRestricted (s : Symbol) : Bool :=
  s.isSlack || s.isDummy

/-- Symbols are ordered by their numbers, and among equal numbers by their roles. -/
def order (s t : Symbol) : Ordering :=
  compareLex (compareOn Symbol.index) (compareOn fun s => s.role.rank) s t

instance : Std.TransCmp order :=
  inferInstanceAs (Std.TransCmp
    (compareLex (compareOn Symbol.index) (compareOn fun s : Symbol => s.role.rank)))

instance : Std.LawfulEqCmp order where
  eq_of_compare {s t} h := by
    rw [order, compareLex, compareOn, compareOn, Ordering.then_eq_eq] at h
    obtain ⟨i, a⟩ := s
    obtain ⟨j, b⟩ := t
    simp only [Nat.compare_eq_eq, Symbol.mk.injEq] at h ⊢
    exact ⟨h.1, Role.eq_of_rank_eq h.2⟩

end Symbol
end LinearLayout
