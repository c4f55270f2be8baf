import LinearLayout.Scalar
import LinearLayout.Symbol
import LinearLayout.OrderedMap.Lemmas

/-!
# Rows

A row is a constant plus a weighted sum of symbols.  Cells keep the order in which their symbols
entered, because pivots are chosen by that order.  A sum that cancels removes its cell, a product
never does.
-/

namespace LinearLayout

/-- A constant plus a weighted sum of symbols. -/
structure Row (K : Type) where
  constant : K
  cells : OrderedMap Symbol K

namespace Row

variable {K : Type}

/-- The row of a constant. -/
def ofConstant (x : K) : Row K :=
  ⟨x, ∅⟩

/-- The symbols of a row in the order in which they entered. -/
def symbols (r : Row K) : List Symbol :=
  r.cells.keys

/-- True if a symbol has a cell in the row. -/
def mentions (r : Row K) (s : Symbol) : Bool :=
  r.cells.contains s

/-- True of a row without cells. -/
def isConstant (r : Row K) : Bool :=
  r.cells.isEmpty

/-- The row without one of its cells. -/
def without (r : Row K) (s : Symbol) : Row K :=
  { r with cells := r.cells.erase s }

variable [Scalar K]

/-- The coefficient of a symbol, zero if it has no cell. -/
def coefficient (r : Row K) (s : Symbol) : K :=
  (r.cells.get? s).getD 0

/-- Multiplies the constant and every cell. -/
def scale (r : Row K) (k : K) : Row K :=
  ⟨r.constant * k, r.cells.mapValues (· * k)⟩

/-- A coefficient that has not cancelled. -/
def prune (k : K) : Option K :=
  if Scalar.isNegligible k then none else some k

/-- What a cell holds after a coefficient is added to it. -/
def accumulate (k : K) : Option K → Option K
  | none => prune k
  | some c => prune (c + k)

/-- Adds a multiple of a symbol. -/
def addTerm (r : Row K) (s : Symbol) (k : K) : Row K :=
  { r with cells := r.cells.alter s (accumulate k) }

/-- Adds terms in turn, each multiplied by the same number. -/
def addTerms (r : Row K) (terms : List (Symbol × K)) (k : K) : Row K :=
  terms.foldl (fun r t => r.addTerm t.1 (t.2 * k)) r

/-- Adds a multiple of another row. -/
def addRow (r : Row K) (other : Row K) (k : K) : Row K :=
  { r with constant := r.constant + k * other.constant }.addTerms other.cells.entries k

/-- Puts a row in place of a symbol that it equals; without that symbol nothing changes. -/
def substitute (r : Row K) (s : Symbol) (replacement : Row K) : Row K :=
  match r.cells.get? s with
  | none => r
  | some k => (r.without s).addRow replacement k

/-- One over the coefficient of a symbol. -/
def reciprocal (r : Row K) (s : Symbol) : K :=
  1 / (r.cells.get? s).getD 1

/--
Solves `0 = row` for a symbol: the cell goes and the rest is divided by the coefficient and
negated.
-/
def solveFor (r : Row K) (s : Symbol) : Row K :=
  (r.without s).scale (-r.reciprocal s)

/-- Turns `leaving = row` into `entering = row`, which now mentions `leaving`. -/
def exchange (r : Row K) (leaving entering : Symbol) : Row K :=
  let solved := r.solveFor entering
  { solved with cells := solved.cells.insert leaving (r.reciprocal entering) }

section Cells

@[simp] theorem get?_scale
    (r : Row K) (k : K) (s : Symbol) :
    (r.scale k).cells.get? s = (r.cells.get? s).map (· * k) :=
  OrderedMap.get?_mapValues _ _ _

@[simp] theorem symbols_scale
    (r : Row K) (k : K) :
    (r.scale k).symbols = r.symbols :=
  OrderedMap.keys_mapValues _

theorem get?_addTerm
    (r : Row K) (s i : Symbol) (k : K) :
    (r.addTerm s k).cells.get? i =
      if i = s then accumulate k (r.cells.get? s) else r.cells.get? i :=
  OrderedMap.get?_alter _ _ _ _

@[simp] theorem constant_addTerm
    (r : Row K) (s : Symbol) (k : K) :
    (r.addTerm s k).constant = r.constant :=
  rfl

@[simp] theorem constant_addTerms
    (r : Row K) (terms : List (Symbol × K)) (k : K) :
    (r.addTerms terms k).constant = r.constant := by
  induction terms generalizing r with
  | nil =>
      rfl
  | cons t terms ih =>
      exact ih (r.addTerm t.1 (t.2 * k))

@[simp] theorem constant_addRow
    (r other : Row K) (k : K) :
    (r.addRow other k).constant = r.constant + k * other.constant :=
  constant_addTerms _ _ _

theorem prune_eq_some_iff
    {k c : K} :
    prune k = some c ↔ Scalar.isNegligible k = false ∧ k = c := by
  unfold prune
  split <;> simp_all

end Cells

end Row
end LinearLayout
