import Misuse.Text.Basic
import Misuse.Text.EditDistance

/-!
# Faults of settings

What is wrong with settings, or with a document that holds them, by cause; `message` has
the wording. For a preset that is unknown, the nearest of the known names may be suggested.
-/

namespace Misuse

inductive SettingsFault where
  /-- A cap on combinations of values that is out of bounds. -/
  | combinations (value : Nat)
  /-- A number of workers that is out of bounds. -/
  | workers (value : Nat)
  | blankKeying (var : String)
  /-- A variable that identifies and is barred from anchoring at once. -/
  | keyingUnanchored (var : String)
  | missingVersion
  | unsupportedVersion (found : Nat)
  | unknownPreset (name : String) (suggestion : Option String)
  /-- No document can be had. -/
  | unavailable
  /-- The document has another shape. -/
  | shape
  deriving DecidableEq, Repr, Inhabited

namespace SettingsFault

def leastCombinations : Nat := 1
def greatestCombinations : Nat := 1000000
def greatestWorkers : Nat := 256

/-- The version that documents are written in. -/
def supportedVersion : Nat := 1

/-! ## Suggestions -/

/-- The most edits at which a name still counts as a slip. -/
def suggestionRange : Nat := 3

def distanceTo (name known : String) : Nat :=
  Text.EditDistance.distance (name.toList.flatMap Text.asciiLowered) known.toList

/-- Nearer, or as near and earlier in the alphabet. -/
def isBetter (name k l : String) : Bool :=
  let d := distanceTo name k
  let e := distanceTo name l
  decide (d < e) || (d == e && decide (k < l))

def better (name : String) : Option String → String → Option String
  | none, k => some k
  | some l, k => some (if isBetter name k l then k else l)

/-- The nearest known name in range. -/
def suggestion? (known : List String) (name : String) : Option String :=
  (known.filter fun k => decide (distanceTo name k ≤ suggestionRange)).foldl (better name) none

def unknown (known : List String) (name : String) : SettingsFault :=
  .unknownPreset name (suggestion? known name)

/-! ## Wording -/

/-- A blank character as it is shown: the space itself, all others spelled out. -/
def shownBlank (c : Char) : String :=
  if c = ' ' then " "
  else if c = '\t' then "\\t"
  else if c = '\n' then "\\n"
  else if c = '\r' then "\\r"
  else "\\u\x7b" ++ String.ofList (Nat.toDigits 16 c.toNat) ++ "\x7d"

def shownBlankText (s : String) : String :=
  "\"" ++ String.join (s.toList.map shownBlank) ++ "\""

def outOfRange (field : String) (value least greatest : Nat) (hint : String) : String :=
  s!"{field} = {value} is outside {least}..={greatest} ({hint})"

def conflict (issue fix : String) : String :=
  s!"conflicting settings: {issue}. Fix: {fix}"

def message : SettingsFault → String
  | .combinations n =>
    outOfRange "constraints.max_value_combinations" n leastCombinations greatestCombinations
      "at least one combination must be checked"
  | .workers n =>
    outOfRange "parallel.num_threads" n 0 greatestWorkers
      "0 sizes the pool from the available cores"
  | .blankKeying var =>
    conflict ("empty keying variable name " ++ shownBlankText var)
      "remove the entry from policy.keying_variables"
  | .keyingUnanchored var =>
    conflict ("'" ++ var ++ "' is both a keying variable and a skipped anchor")
      "list the variable in only one of the two sets"
  | .missingVersion => "configuration file has no 'version' key (expected 'version: 1')"
  | .unsupportedVersion n =>
    s!"configuration version {n} is not supported (supported: [{supportedVersion}])"
  | .unknownPreset name none => "unknown preset '" ++ name ++ "'"
  | .unknownPreset name (some s) =>
    "unknown preset '" ++ name ++ "'. Did you mean '" ++ s ++ "'?"
  | .unavailable => "cannot read configuration"
  | .shape => "invalid configuration YAML"

end SettingsFault

end Misuse
