import Misuse.Rule.Basic
import Misuse.Rule.Defect

/-!
# Well-formed rules

`Rule.check` looks for the first defect of a rule: its states, then the labels of its
transitions if they are checked strictly, then its variables, then the terms of its
predicates.
-/

namespace Misuse

namespace Rule

/-! ## States -/

/-- Every state a rule refers to: initial ones, ends of transitions, scopes of effects. -/
def referencedStates (r : Rule) : List String :=
  r.automaton.initial
    ++ (r.automaton.transitions.flatMap fun t => [t.source, t.target])
    ++ (r.effects.filterMap Effect.scope).flatten

def checkStates (r : Rule) : Except Defect Unit :=
  if r.automaton.initial.isEmpty then .error (.noInitialState r.className)
  else
    match r.referencedStates.find? fun s => !r.automaton.declares s with
    | some s => .error (.unknownState r.className s)
    | none =>
      match r.automaton.unreachable with
      | [] => .ok ()
      | states => .error (.unreachableStates r.className states)

/-! ## Labels -/

/-- The label entries of the transitions that leave a state, with their targets. -/
def entriesFrom (a : Automaton) (state : String) : List (Signature × String) :=
  (a.outgoing state).flatMap fun t => t.label.map fun m => (m, t.target)

/-- The first method with an earlier entry that leads elsewhere. -/
def overlap? (earlier : List (Signature × String)) : List (Signature × String) → Option Signature
  | [] => none
  | (m, target) :: r =>
    if earlier.any fun e => e.1.same m && e.2 != target then some m
    else overlap? ((m, target) :: earlier) r

/-- The first state that has a method lead to two states. -/
def checkLabels (r : Rule) : Except Defect Unit :=
  match r.automaton.states.findSome? fun s =>
      (overlap? [] (entriesFrom r.automaton s.id)).map fun m => (s.id, m) with
  | some (state, m) => .error (.overlappingLabels r.className state m.shortName)
  | none => .ok ()

/-! ## Variables -/

/-- The variables a method binds, the result included. -/
def boundNames (m : Signature) : List String :=
  m.boundParams.map Prod.snd ++ if m.result.isBound then [m.result.name] else []

def referencedVars (r : Rule) : List String :=
  Sorted.ofList
    (r.automaton.alphabet.flatMap boundNames
      ++ r.constraints.flatMap Constraint.mentions
      ++ r.effects.flatMap Effect.mentions)

/-- `this` and `_` need no declaration. -/
def knows (r : Rule) (name : String) : Bool := name == "this" || name == "_" || r.declares name

def checkVars (r : Rule) : Except Defect Unit :=
  match r.referencedVars.find? fun name => !r.knows name with
  | some name => .error (.unknownVariable r.className name)
  | none => .ok ()

/-! ## Predicates -/

def isMethod (t : Term) : Bool := t.method?.isSome
def isType (t : Term) : Bool := t.type?.isSome

/-- The terms a built-in predicate takes. -/
def fits : Builtin → List Term → Bool
  | .callTo, ts | .noCallTo, ts => !ts.isEmpty && ts.all isMethod
  | .neverTypeOf, [.var _, .type _] | .instanceOf, [.var _, .type _] => true
  | .length, [.var _] | .notHardCoded, [.var _] => true
  | _, _ => false

def expectation : Builtin → String
  | .callTo | .noCallTo => "one or more methods"
  | .neverTypeOf | .instanceOf => "an object and a type name"
  | .length | .notHardCoded => "exactly one object"

/-- How many terms there are of each sort. -/
def census (ts : List Term) : String :=
  let methods := (ts.filter isMethod).length
  let types := (ts.filter isType).length
  toString (ts.length - methods - types) ++ " object(s), " ++ toString methods ++ " method(s), "
    ++ toString types ++ " type(s)"

def checkPredicate (r : Rule) (p : Predicate) : Except Defect Unit :=
  match p.atom.builtin? with
  | none =>
    if p.atom.terms.any fun t => isMethod t || isType t then
      .error (.unknownBuiltin r.className p.atom.name)
    else .ok ()
  | some b =>
    if fits b p.atom.terms then .ok ()
    else .error (.builtinArity r.className p.atom.name (expectation b) (census p.atom.terms))

/-- The predicates whose terms are checked: those of the constraints with their guards, and
those of the effects without. -/
def checkedPredicates (r : Rule) : List Predicate :=
  r.constraints.flatMap Constraint.predicates ++ r.effects.map Effect.predicate

def checkPredicates (r : Rule) : Except Defect Unit := r.checkedPredicates.forM r.checkPredicate

/-! ## All checks -/

def check (strict : Bool) (r : Rule) : Except Defect Unit := do
  r.checkStates
  if strict then r.checkLabels
  r.checkVars
  r.checkPredicates

end Rule

end Misuse
