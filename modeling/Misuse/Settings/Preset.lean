import Misuse.Text.Basic

/-!
# Presets

Named starting points for the settings. A name is read without regard to letter case and
surrounding blanks.
-/

namespace Misuse

inductive Preset where
  | fast
  | balanced
  | thorough
  /-- As `balanced`, meant to be overridden. -/
  | custom
  deriving DecidableEq, Repr, Inhabited

namespace Preset

def all : List Preset := [.fast, .balanced, .thorough, .custom]

def name : Preset → String
  | .fast => "fast"
  | .balanced => "balanced"
  | .thorough => "thorough"
  | .custom => "custom"

/-- The known names. -/
def names : List String := all.map name

def ofName? (s : String) : Option Preset :=
  all.find? fun p => Text.sameLetters p.name (Text.trim s)

/-- Every preset is read back from its name. -/
theorem ofName?_name (p : Preset) : ofName? p.name = some p := by
  cases p <;> decide +kernel

end Preset

end Misuse
