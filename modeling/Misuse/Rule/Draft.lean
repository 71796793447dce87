import Misuse.Rule.WellFormed

/-!
# Drafts

A rule under construction. Effects that follow certain calls name the methods; their
scopes are found in the finished automaton by `Draft.finish`, so steps may come in any
order. A method that a constraint forbids by `noCallTo` is banned silently.
-/

namespace Misuse

/-- When an effect happens. -/
inductive Scope where
  /-- In every accepting state. -/
  | accepting
  | states (ids : List String)
  /-- After the transitions that the methods mean. -/
  | after (methods : List Signature)
  deriving DecidableEq, Repr, Inhabited

def Scope.resolve (a : Automaton) : Scope → Option (List String)
  | .accepting => none
  | .states ids => some (Sorted.ofList ids)
  | .after methods => some (a.statesAfter methods)

structure Draft where
  className : String
  declarations : List Declaration
  bans : List Ban
  automaton : Automaton
  constraints : List Constraint
  effects : List (Predicate × Scope)
  deriving DecidableEq, Repr, Inhabited

namespace Draft

def start (className : String) : Draft := ⟨className, [], [], .empty, [], []⟩

def declare (d : Draft) (name type : String) : Draft :=
  { d with declarations := d.declarations ++ [⟨name, type⟩] }

/-! ## Bans -/

/-- Ban a method; the alternatives of repeated bans add up, and a silent ban becomes an open
one. -/
def banIn (m : Signature) (alternatives : List Signature) : List Ban → List Ban
  | [] => [⟨m, alternatives, false⟩]
  | b :: r =>
    if b.method.same m then ⟨b.method, b.alternatives ++ alternatives, false⟩ :: r
    else b :: banIn m alternatives r

def ban (d : Draft) (m : Signature) (alternatives : List Signature) : Draft :=
  { d with bans := banIn m alternatives d.bans }

/-- Ban a method silently unless it is banned already. -/
def banSilently (bans : List Ban) (m : Signature) : List Ban :=
  if bans.any fun b => b.method.same m then bans else bans ++ [⟨m, [], true⟩]

/-- The methods that `noCallTo` forbids anywhere in a constraint. -/
def forbiddenBy (c : Constraint) : List Signature :=
  c.predicates.flatMap fun p =>
    if p.atom.builtin? = some .noCallTo then p.atom.terms.filterMap Term.method? else []

/-! ## Automaton -/

def state (d : Draft) (id : String) (accepting : Bool) : Draft :=
  { d with automaton := d.automaton.addState id accepting }

/-- Mark a state initial; it is declared, not accepting, if it was not before. -/
def initialState (d : Draft) (id : String) : Draft :=
  let a := if d.automaton.declares id then d.automaton else d.automaton.addState id false
  { d with automaton := a.addInitial id }

def transition (d : Draft) (source : String) (label : List Signature) (target : String) : Draft :=
  { d with automaton := d.automaton.addTransition source label target }

/-! ## Constraints -/

def constrain (d : Draft) (c : Constraint) : Draft :=
  { d with
    bans := (forbiddenBy c).foldl banSilently d.bans
    constraints := d.constraints ++ [c] }

def require (d : Draft) (p : Predicate) : Draft := d.constrain p.toConstraint

/-- Require one of several predicates; nothing if there are none. -/
def requireAny (d : Draft) (ps : List Predicate) : Draft :=
  match Constraint.anyOf? ps with
  | some c => d.constrain c
  | none => d

def throws (d : Draft) (m : Signature) (exception : String) : Draft :=
  { d with constraints := d.constraints ++ [.throws m exception] }

/-! ## Effects -/

def establish (d : Draft) (p : Predicate) (scope : Scope) : Draft :=
  { d with effects := d.effects ++ [(p, scope)] }

def retract (d : Draft) (p : Predicate) (scope : Scope) : Draft := d.establish p.negate scope

/-! ## Finishing -/

def finish (d : Draft) : Rule :=
  { className := d.className
    declarations := d.declarations
    bans := d.bans
    automaton := d.automaton
    constraints := d.constraints
    effects := d.effects.map fun (p, scope) => ⟨p, scope.resolve d.automaton⟩ }

def finishChecked (strict : Bool) (d : Draft) : Except Defect Rule :=
  (d.finish.check strict).map fun _ => d.finish

end Draft

end Misuse
