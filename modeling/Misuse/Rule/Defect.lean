import Misuse.Text.Basic

/-!
# Defects of rules

Why a rule, or a document of rules, was not accepted.
-/

namespace Misuse

/-- Why a document cannot be read as rules. -/
inductive DocumentFault where
  /-- The text cannot be fetched. -/
  | unavailable
  /-- The text is no JSON text. -/
  | syntaxError
  /-- The text is neither a rule nor a list of rules. -/
  | shape
  deriving DecidableEq, Repr, Inhabited

def DocumentFault.message : DocumentFault → String
  | .unavailable => "io"
  | .syntaxError => "syntax"
  | .shape => "data did not match any variant of untagged enum RuleDocument"

inductive Defect where
  | noInitialState (rule : String)
  | unknownState (rule state : String)
  | unreachableStates (rule : String) (states : List String)
  /-- A predicate that is not built in has a method or a type among its terms. -/
  | unknownBuiltin (rule predicate : String)
  | builtinArity (rule predicate expected found : String)
  | unknownVariable (rule variableName : String)
  | overlappingLabels (rule state method : String)
  | unreadable (source : String) (fault : DocumentFault)
  deriving DecidableEq, Repr, Inhabited

namespace Defect

/-- The rule at fault, or the document. -/
def ruleName : Defect → String
  | .noInitialState rule | .unknownState rule _ | .unreachableStates rule _
  | .unknownBuiltin rule _ | .builtinArity rule _ _ _ | .unknownVariable rule _
  | .overlappingLabels rule _ _ => rule
  | .unreadable source _ => source

def message : Defect → String
  | .noInitialState rule => "Rule '" ++ rule ++ "' declares no initial state"
  | .unknownState rule state => "Rule '" ++ rule ++ "' references unknown state '" ++ state ++ "'"
  | .unreachableStates rule states =>
    "Rule '" ++ rule ++ "' has states unreachable from the initial states: "
      ++ Text.joined ", " states
  | .unknownBuiltin rule predicate =>
    "Rule '" ++ rule ++ "' uses '" ++ predicate
      ++ "' with method or type arguments, but it is not a built-in predicate"
  | .builtinArity rule predicate expected found =>
    "Rule '" ++ rule ++ "': built-in '" ++ predicate ++ "' expects " ++ expected ++ ", found "
      ++ found
  | .unknownVariable rule name =>
    "Rule '" ++ rule ++ "' references undeclared object '" ++ name ++ "'"
  | .overlappingLabels rule state method =>
    "Rule '" ++ rule ++ "': state '" ++ state ++ "' has overlapping labels for '" ++ method ++ "'"
  | .unreadable source fault =>
    "Cannot read rule model from '" ++ source ++ "': " ++ fault.message

end Defect

end Misuse
