import Misuse.Distinct
import Misuse.Matching
import Misuse.Sorted

/-!
# Usage automata

The call orders a rule allows: a nondeterministic automaton whose transitions are labelled
with signatures. State sets are increasing lists of names. A state is reachable if a path
of transitions between declared states leads to it from a declared initial state.
-/

namespace Misuse

structure State where
  id : String
  accepting : Bool
  deriving DecidableEq, Repr, Inhabited

structure Transition where
  source : String
  target : String
  label : List Signature
  deriving DecidableEq, Repr, Inhabited

namespace Transition

def display (t : Transition) : String :=
  t.source ++ " --\x7b" ++ Text.joined ", " (t.label.map Signature.shortName) ++ "\x7d--> "
    ++ t.target

end Transition

structure Automaton where
  /-- In order of declaration. -/
  states : List State
  initial : List String
  transitions : List Transition
  deriving DecidableEq, Repr, Inhabited

namespace Automaton

def empty : Automaton := ⟨[], [], []⟩

/-! ## Declaring -/

def setAccepting (id : String) (accepting : Bool) : List State → List State
  | [] => [⟨id, accepting⟩]
  | s :: r => if s.id == id then ⟨id, accepting⟩ :: r else s :: setAccepting id accepting r

/-- Declare a state; one declared before keeps its place and changes its flag. -/
def addState (a : Automaton) (id : String) (accepting : Bool) : Automaton :=
  { a with states := setAccepting id accepting a.states }

def addInitial (a : Automaton) (id : String) : Automaton :=
  { a with initial := Sorted.insert id a.initial }

def addTransition (a : Automaton) (source : String) (label : List Signature)
    (target : String) : Automaton :=
  { a with transitions := a.transitions ++ [⟨source, target, label⟩] }

/-! ## Looking up -/

def declares (a : Automaton) (id : String) : Bool := a.states.any fun s => s.id == id

/-- An undeclared state does not accept. -/
def isAccepting (a : Automaton) (id : String) : Bool :=
  match a.states.find? fun s => s.id == id with
  | some s => s.accepting
  | none => false

def outgoing (a : Automaton) (source : String) : List Transition :=
  a.transitions.filter fun t => t.source == source

/-- Every method a label names, once. -/
def alphabet (a : Automaton) : List Signature :=
  distinctBy Signature.forgetResult (a.transitions.flatMap Transition.label)

/-- The methods of the labels that leave one of the states, once. -/
def expected (a : Automaton) (current : List String) : List Signature :=
  distinctBy Signature.forgetResult
    ((a.transitions.filter fun t => current.contains t.source).flatMap Transition.label)

/-- A label is meant by a list of methods: it is the list, or holds its only member. -/
def labelMeets (label methods : List Signature) : Bool :=
  !label.isEmpty &&
    (label.map Signature.forgetResult == methods.map Signature.forgetResult ||
      match methods with
      | [m] => label.any m.same
      | _ => false)

/-- The targets of the transitions that the methods mean. -/
def statesAfter (a : Automaton) (methods : List Signature) : List String :=
  if methods.isEmpty then []
  else Sorted.ofList
    ((a.transitions.filter fun t => labelMeets t.label methods).map Transition.target)

def inAlphabet (a : Automaton) (m : Matcher) (called : Callee) : Bool :=
  a.alphabet.any fun entry => m.accepts entry called

/-! ## Reachability -/

/-- The declared states one transition leads to. -/
def successors (a : Automaton) (id : String) : List String :=
  ((a.outgoing id).map Transition.target).filter a.declares

def reachable (a : Automaton) : List String :=
  walk a.successors a.transitions.length (a.initial.filter a.declares) []

/-- A state declared again later counts where it is declared last. -/
def unreachableIn (reached : List String) : List State → List String
  | [] => []
  | s :: r =>
    if reached.contains s.id && !(r.any fun t => t.id == s.id) then unreachableIn reached r
    else s.id :: unreachableIn reached r

/-- The declared states that are not reachable, in order of declaration. -/
def unreachable (a : Automaton) : List String := unreachableIn a.reachable a.states

end Automaton

end Misuse
