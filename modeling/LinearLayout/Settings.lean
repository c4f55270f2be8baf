import LinearLayout.Priority

/-!
# Settings

Every setting has a default.  Settings are checked when they are read from text, not when they
are made: a layout accepts any settings it is given.
-/

namespace LinearLayout

/-- How hard a solver tries. -/
structure SolverSettings where
  /-- The largest number of pivots in one minimisation; the first pivot is always allowed. -/
  maxPivots : Nat := 10000
deriving DecidableEq, Repr

/-- The priorities that an entity starts with when it has no others. -/
structure IntrinsicSettings (K : Type) [Scalar K] where
  /-- How strongly an extent resists growing beyond the measured size. -/
  hugging : Priority K := .low
  /-- How strongly an extent resists shrinking below the measured size. -/
  resistance : Priority K := .high

/-- All settings. -/
structure Settings (K : Type) [Scalar K] where
  solver : SolverSettings := {}
  intrinsic : IntrinsicSettings K := {}

/-- Why settings are refused. -/
inductive SettingsError where
  /-- The text could not be obtained. -/
  | unreadable (reason : String)
  /-- The text is no document, or a setting has a value of the wrong kind. -/
  | malformed
  /-- No pivot would be allowed. -/
  | noPivots
  /-- A weight is not positive and finite. -/
  | badWeight (setting : String) (weight : Float)

namespace SettingsError

/-- The text of a refusal, where there is one to give. -/
def message? : SettingsError → Option String
  | .unreadable reason => some ("IO error: " ++ reason)
  | .malformed => none
  | .noPivots =>
    some "Invalid configuration: solver.max_pivots must be greater than zero"
  | .badWeight setting weight =>
    some ("Invalid configuration: " ++ setting ++ " must be a positive finite weight, got " ++
      numberText weight)

end SettingsError

namespace IntrinsicSettings

variable {K : Type} [Scalar K]

/-- Equality of both priorities, weights compared as numbers. -/
def sameAs (a b : IntrinsicSettings K) : Bool :=
  a.hugging.sameAs b.hugging && a.resistance.sameAs b.resistance

end IntrinsicSettings

namespace Settings

variable {K : Type} [Scalar K]

instance : Inhabited (Settings K) :=
  ⟨{}⟩

/-- Equality of all settings, weights compared as numbers. -/
def sameAs (a b : Settings K) : Bool :=
  a.solver == b.solver && a.intrinsic.sameAs b.intrinsic

/-- Checks the weight of one priority. -/
def checkWeight (setting : String) : Priority Float → Except SettingsError Unit
  | .required => .ok ()
  | .preferred w => if !w.isFinite || w <= 0 then .error (.badWeight setting w) else .ok ()

/-- Checks that settings make sense; the first fault found is reported. -/
def validate (s : Settings Float) : Except SettingsError Unit :=
  if s.solver.maxPivots = 0 then .error .noPivots
  else
    match checkWeight "intrinsic.content_hugging" s.intrinsic.hugging with
    | .error e => .error e
    | .ok () => checkWeight "intrinsic.compression_resistance" s.intrinsic.resistance

end Settings
end LinearLayout
