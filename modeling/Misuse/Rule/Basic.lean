import Misuse.Automaton
import Misuse.Constraint.Predicate

/-!
# Rules

How objects of one type must be used: the variables of the rule, the automaton of allowed
call orders, banned methods, constraints, and the effects of reaching states on the
predicates other rules rely on.
-/

namespace Misuse

structure Declaration where
  name : String
  type : String
  deriving DecidableEq, Repr, Inhabited

/-- A method that must not be called. A silent ban is enforced by a constraint and is not
reported by itself. -/
structure Ban where
  method : Signature
  /-- Suggested replacements. -/
  alternatives : List Signature
  silent : Bool
  deriving DecidableEq, Repr, Inhabited

/-- A predicate that is established on reaching a state, or retracted if it is negated. -/
structure Effect where
  predicate : Predicate
  /-- The states in question; every accepting state if there is no list. -/
  scope : Option (List String)
  deriving DecidableEq, Repr, Inhabited

namespace Effect

def isRetraction (e : Effect) : Bool := e.predicate.atom.negated

/-- Reaching a state, accepting or not, has this effect. -/
def happensIn (e : Effect) (state : String) (accepting : Bool) : Bool :=
  match e.scope with
  | some states => states.contains state
  | none => accepting

/-- The variables of the predicate and those its guard mentions. -/
def mentions (e : Effect) : List String :=
  e.predicate.atom.mentions ++
    match e.predicate.guard with
    | some g => g.mentions
    | none => []

end Effect

structure Rule where
  /-- The type the rule is about. -/
  className : String
  declarations : List Declaration
  bans : List Ban
  automaton : Automaton
  constraints : List Constraint
  effects : List Effect
  deriving DecidableEq, Repr, Inhabited

namespace Rule

def empty (className : String) : Rule := ⟨className, [], [], .empty, [], []⟩

def simpleName (r : Rule) : String := Text.shortName r.className

def typeOf? (r : Rule) (name : String) : Option String :=
  (r.declarations.find? fun d => d.name == name).map Declaration.type

def declares (r : Rule) (name : String) : Bool := (r.typeOf? name).isSome

/-- The bans that are reported by themselves. -/
def reportedBans (r : Rule) : List Ban := r.bans.filter fun b => !b.silent

def established (r : Rule) : List Effect := r.effects.filter fun e => !e.isRetraction

def retracted (r : Rule) : List Effect := r.effects.filter Effect.isRetraction

/-- The exceptions declared among the constraints. -/
def exceptions (r : Rule) : List (Signature × String) :=
  r.constraints.filterMap fun c =>
    match c with
    | .throws m exception => some (m, exception)
    | _ => none

end Rule

end Misuse
