import Misuse.Rule.Document
import Misuse.Rule.WellFormed

/-!
# Rulebooks

The accepted rules, one for each type, and the defects of those that were not accepted. A
rule with a defect disables only itself; a later rule for a type replaces the earlier one.
-/

namespace Misuse

/-- A named text of rules; there is no text if it could not be fetched. -/
structure Source where
  name : String
  text : Option String
  deriving DecidableEq, Repr, Inhabited

namespace Source

/-- What a source holds: rules, or the one defect of its text. -/
def load (s : Source) : List (Except Defect Rule) :=
  match s.text with
  | none => [.error (.unreadable s.name .unavailable)]
  | some text =>
    match Rule.readDocument text with
    | .ok rules => rules.map .ok
    | .error fault => [.error (.unreadable s.name fault)]

end Source

structure Rulebook where
  rules : List Rule
  rejected : List Defect
  deriving DecidableEq, Repr, Inhabited

namespace Rulebook

def empty : Rulebook := ⟨[], []⟩

def replaceIn (rule : Rule) : List Rule → List Rule
  | [] => [rule]
  | r :: rs => if r.className == rule.className then rule :: rs else r :: replaceIn rule rs

/-- Check a rule and add it, in the place of an earlier rule for its type. -/
def insert (b : Rulebook) (strict : Bool) (rule : Rule) : Rulebook :=
  match rule.check strict with
  | .ok _ => { b with rules := replaceIn rule b.rules }
  | .error defect => { b with rejected := b.rejected ++ [defect] }

def reject (b : Rulebook) (defect : Defect) : Rulebook :=
  { b with rejected := b.rejected ++ [defect] }

def get? (b : Rulebook) (className : String) : Option Rule :=
  b.rules.find? fun r => r.className == className

def defect? (strict : Bool) (r : Rule) : Option Defect :=
  match r.check strict with
  | .ok _ => none
  | .error defect => some defect

/-- Check the accepted rules once more; those that fail become defects. -/
def revalidate (b : Rulebook) (strict : Bool) : Rulebook :=
  { rules := b.rules.filter fun r => (defect? strict r).isNone
    rejected := b.rejected ++ b.rules.filterMap (defect? strict) }

/-- How many rules a check moves to the defects. -/
def movedBy (b : Rulebook) (strict : Bool) : Nat :=
  b.rules.length - (b.revalidate strict).rules.length

def add (b : Rulebook) (strict : Bool) : Except Defect Rule → Rulebook
  | .ok rule => b.insert strict rule
  | .error defect => b.reject defect

/-- The rulebook of one source. -/
def load (strict : Bool) (s : Source) : Rulebook := s.load.foldl (fun b r => b.add strict r) empty

/-- Take over the accepted rules of another rulebook, then its defects. -/
def absorb (b : Rulebook) (strict : Bool) (other : Rulebook) : Rulebook :=
  let b := other.rules.foldl (fun b r => b.insert strict r) b
  { b with rejected := b.rejected ++ other.rejected }

end Rulebook

end Misuse
