import Misuse.Distinct
import Misuse.Rule.Defect

/-!
# Violations

One record per detected misuse, and advisories: values that could not be determined, and
rules that were not accepted, are no misuse of an object.
-/

namespace Misuse

inductive Violation.Kind where
  | ordering
  | forbiddenCall
  | constraint
  | missingPredicate
  | impreciseValue
  | incompleteOperation
  | malformedRule
  deriving DecidableEq, Repr, Inhabited, Ord

namespace Violation.Kind

def all : List Kind :=
  [.ordering, .forbiddenCall, .constraint, .missingPredicate, .impreciseValue,
   .incompleteOperation, .malformedRule]

def name : Kind → String
  | .ordering => "Ordering"
  | .forbiddenCall => "ForbiddenCall"
  | .constraint => "Constraint"
  | .missingPredicate => "MissingPredicate"
  | .impreciseValue => "ImpreciseValue"
  | .incompleteOperation => "IncompleteOperation"
  | .malformedRule => "MalformedRule"

def ofName? (name : String) : Option Kind := all.find? fun k => k.name == name

def title : Kind → String
  | .ordering => "Ordering Violation"
  | .forbiddenCall => "Forbidden Call"
  | .constraint => "Constraint Violation"
  | .missingPredicate => "Missing Predicate"
  | .impreciseValue => "Imprecise Value"
  | .incompleteOperation => "Incomplete Operation"
  | .malformedRule => "Malformed Rule"

/-- Counts as misuse. -/
def isMisuse : Kind → Bool
  | .impreciseValue | .malformedRule => false
  | _ => true

end Violation.Kind

structure Violation where
  kind : Violation.Kind
  /-- The type whose rule the record belongs to, or the document that has no rule. -/
  rule : String
  object : Option String
  /-- In order of observation, each once. -/
  sites : List String
  /-- The offending constraint, predicate or method. -/
  subject : Option String
  /-- Methods that were expected, or suggested replacements. -/
  expected : List String
  message : String
  deriving DecidableEq, Repr, Inhabited

namespace Violation

/-- A call the automaton does not allow from the current states. -/
def ordering (rule object site called : String) (expected : List String) : Violation :=
  { kind := .ordering, rule, object, sites := [site], subject := called, expected
    message := "Unexpected call to " ++ called ++
      if expected.isEmpty then "; no further calls are allowed"
      else "; expected one of: " ++ Text.joined ", " expected }

def forbiddenCall (rule object site method : String) (alternatives : List String) : Violation :=
  { kind := .forbiddenCall, rule, object, sites := [site], subject := method
    expected := alternatives
    message := "Call to forbidden method " ++ method ++
      if alternatives.isEmpty then ""
      else "; use " ++ Text.joined " or " alternatives ++ " instead" }

def constraint (rule object subject : String) (sites : List String) : Violation :=
  { kind := .constraint, rule, object, sites := distinct sites, subject, expected := []
    message := "Constraint " ++ subject ++ " is violated" }

def missingPredicate (rule object subject : String) (anchor : Option String) : Violation :=
  { kind := .missingPredicate, rule, object, sites := anchor.toList, subject, expected := []
    message := "Required predicate " ++ subject ++ " is never established" }

def impreciseValue (rule object subject : String) (sites : List String) : Violation :=
  { kind := .impreciseValue, rule, object, sites := distinct sites, subject, expected := []
    message := "Could not determine values to check " ++ subject }

/-- An object whose life ended outside an accepting state. -/
def incompleteOperation (rule object : String) (lastSite : Option String)
    (expected : List String) : Violation :=
  { kind := .incompleteOperation, rule, object, sites := lastSite.toList, subject := none, expected
    message := "Operation not completed; missing call to one of: " ++ Text.joined ", " expected }

def malformedRule (defect : Defect) : Violation :=
  { kind := .malformedRule, rule := defect.ruleName, object := none, sites := [], subject := none
    expected := [], message := defect.message }

def display (v : Violation) : String :=
  let place := match v.object, v.sites with
    | some object, site :: _ => " on '" ++ object ++ "' at " ++ site
    | some object, [] => " on '" ++ object ++ "'"
    | none, _ => ""
  "[" ++ v.rule ++ "] " ++ v.kind.title ++ place ++ ": " ++ v.message

/-- What tells a record from another. Advisories on values are one whatever their sites. -/
structure Key where
  kind : Kind
  rule : String
  object : Option String
  subject : Option String
  sites : List String
  deriving DecidableEq, Repr

def key (v : Violation) : Key :=
  ⟨v.kind, v.rule, v.object, v.subject, if v.kind = .impreciseValue then [] else v.sites⟩

end Violation

end Misuse
