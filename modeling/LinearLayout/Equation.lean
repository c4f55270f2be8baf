import LinearLayout.Variable
import LinearLayout.Relation
import LinearLayout.Priority

/-!
# Linear equations

An equation compares a weighted sum of variables with a constant.
-/

namespace LinearLayout

/-- One weighted variable. -/
structure Term (K : Type) where
  coefficient : K
  var : Variable

/-- A weighted sum of variables, compared with a constant. -/
structure Equation (K : Type) [Scalar K] where
  terms : List (Term K)
  relation : Relation
  constant : K
  strength : Strength K

namespace Equation

/-- The required equation that gives a variable a value. -/
def pin {K : Type} [Scalar K] (v : Variable) (x : K) : Equation K :=
  ⟨[⟨1, v⟩], .equal, x, .required⟩

/-- The text of an equation: the terms, the relation, the constant and the strength. -/
def text (e : Equation Float) : String :=
  let terms := e.terms.map fun t => numberText t.coefficient ++ "·" ++ t.var.text
  " + ".intercalate terms ++ " " ++ e.relation.text ++ " " ++ numberText e.constant ++ " @" ++
    e.strength.text

end Equation
end LinearLayout
