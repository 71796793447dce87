import Misuse.Rule.Draft

/-!
# Drafts with positions

A rule under construction that is a rule at any time. Where an effect follows certain calls, its
scope stays open until the automaton is finished: the position of the effect is remembered with the
methods, and `Indexed.finish` enters the states there.
-/

namespace Misuse.Draft

structure Indexed where
  /-- The rule so far. An effect whose scope is open happens nowhere. -/
  rule : Rule
  /-- Positions of effects whose scopes are open, with the methods they follow. -/
  opened : List (Nat × List Signature)
  deriving DecidableEq, Repr, Inhabited

namespace Indexed

def start (className : String) : Indexed := ⟨.empty className, []⟩

def declare (b : Indexed) (name type : String) : Indexed :=
  { b with rule.declarations := b.rule.declarations ++ [⟨name, type⟩] }

def ban (b : Indexed) (m : Signature) (alternatives : List Signature) : Indexed :=
  { b with rule.bans := banIn m alternatives b.rule.bans }

/-! ## Automaton -/

def state (b : Indexed) (id : String) (accepting : Bool) : Indexed :=
  { b with rule.automaton := b.rule.automaton.addState id accepting }

def initialState (b : Indexed) (id : String) : Indexed :=
  let a := b.rule.automaton
  let a := if a.declares id then a else a.addState id false
  { b with rule.automaton := a.addInitial id }

def transition (b : Indexed) (source : String) (label : List Signature) (target : String) :
    Indexed :=
  { b with rule.automaton := b.rule.automaton.addTransition source label target }

/-! ## Constraints -/

def constrain (b : Indexed) (c : Constraint) : Indexed :=
  { b with
    rule.bans := (forbiddenBy c).foldl banSilently b.rule.bans
    rule.constraints := b.rule.constraints ++ [c] }

def require (b : Indexed) (p : Predicate) : Indexed := b.constrain p.toConstraint

def requireAny (b : Indexed) (ps : List Predicate) : Indexed :=
  match Constraint.anyOf? ps with
  | some c => b.constrain c
  | none => b

def throws (b : Indexed) (m : Signature) (exception : String) : Indexed :=
  { b with rule.constraints := b.rule.constraints ++ [.throws m exception] }

/-! ## Effects -/

def push (b : Indexed) (e : Effect) : Indexed :=
  { b with rule.effects := b.rule.effects ++ [e] }

/-- Remember that the next effect follows these methods. -/
def openNext (b : Indexed) (methods : List Signature) : Indexed :=
  { b with opened := b.opened ++ [(b.rule.effects.length, methods)] }

def establish (b : Indexed) (p : Predicate) : Scope → Indexed
  | .accepting => b.push ⟨p, none⟩
  | .states ids => b.push ⟨p, some (Sorted.ofList ids)⟩
  | .after methods => (b.openNext methods).push ⟨p, some []⟩

def retract (b : Indexed) (p : Predicate) (scope : Scope) : Indexed := b.establish p.negate scope

/-! ## Finishing -/

/-- Enter the scope of the effect at a position, if there is one. -/
def close (a : Automaton) (effects : List Effect) (o : Nat × List Signature) : List Effect :=
  effects.modify o.1 fun e => { e with scope := some (a.statesAfter o.2) }

def finish (b : Indexed) : Rule :=
  { b.rule with effects := b.opened.foldl (close b.rule.automaton) b.rule.effects }

end Indexed

end Misuse.Draft
