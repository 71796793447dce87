import Misuse.Judgement
import Misuse.Keying
import Misuse.Query

/-!
# Advancing an object

An object is in a set of states. A call moves every state of the set along the transitions
whose labels it matches; of the transitions that leave one state, exact matches put fuzzy
ones aside. A call that moves no state leaves the set as it is, and is a violation if the
automaton knows it. Bans are checked whatever the states.
-/

namespace Misuse

structure TypestateSettings where
  /-- Match calls on subtypes. -/
  fuzzyMatching : Bool
  /-- Report objects whose life ends outside an accepting state. -/
  reportIncomplete : Bool
  /-- Refuse rules whose labels overlap. -/
  strictLabels : Bool
  deriving DecidableEq, Repr, Inhabited

namespace TypestateSettings

def default : TypestateSettings := ⟨true, true, false⟩

end TypestateSettings

/-- A transition a call fires, with the label entry it matches. -/
structure Firing where
  source : String
  target : String
  method : Signature
  closeness : Closeness
  deriving DecidableEq, Repr, Inhabited

/-- All that one call does to one object. -/
structure Step where
  states : List String
  fired : List Firing
  queries : List Query
  triggers : List Trigger
  violations : List Violation
  deriving DecidableEq, Repr, Inhabited

namespace Step

/-- The closest match among the fired transitions. -/
def closeness? (s : Step) : Option Closeness :=
  if s.fired.isEmpty then none
  else if s.fired.any fun f => f.closeness == .exact then some .exact
  else some .fuzzy

def progressed (s : Step) : Bool := !s.fired.isEmpty

end Step

namespace Rule

/-! ## Transitions -/

def firing? (m : Matcher) (called : Callee) (t : Transition) : Option Firing :=
  (m.best? t.label called).map fun (entry, closeness) => ⟨t.source, t.target, entry, closeness⟩

/-- The transitions a call fires from one state. -/
def firedFrom (r : Rule) (m : Matcher) (called : Callee) (state : String) : List Firing :=
  let matching := (r.automaton.outgoing state).filterMap (firing? m called)
  let exact := matching.filter fun f => f.closeness == .exact
  if exact.isEmpty then matching else exact

def fired (r : Rule) (m : Matcher) (called : Callee) (current : List String) : List Firing :=
  current.flatMap (r.firedFrom m called)

/-- The short names of the methods that can fire, each once. -/
def expectedNames (r : Rule) (current : List String) : List String :=
  distinct ((r.automaton.expected current).map Signature.shortName)

/-! ## What a call asks and brings about -/

/-- The queries of one firing: its named parameters, then the named result. -/
def queriesOf (object site : String) (f : Firing) : List Query :=
  (f.method.boundParams.map fun (i, var) => ⟨object, site, var, .argument i⟩)
    ++ if f.method.result.isBound then [⟨object, site, f.method.result.name, .result⟩] else []

/-- The effects due in the reached states, each for the least state it happens in. -/
def triggers (r : Rule) (site : String) (reached : List String) : List Trigger :=
  r.effects.zipIdx.filterMap fun (e, i) =>
    (reached.find? fun s => e.happensIn s (r.automaton.isAccepting s)).map fun s => ⟨i, s, site⟩

/-! ## Violations -/

/-- The record of the first open ban that matches a call. -/
def banRecord? (r : Rule) (m : Matcher) (object : String) (call : Call) : Option Violation :=
  (r.reportedBans.find? fun b => m.accepts b.method call.callee).map fun b =>
    .forbiddenCall r.className object call.site b.method.display
      (b.alternatives.map Signature.display)

def orderingRecord (r : Rule) (object : String) (current : List String) (call : Call) :
    Violation :=
  .ordering r.className object call.site call.callee.display (r.expectedNames current)

/-! ## Steps -/

/-- Advance an object by one call. -/
def advance (r : Rule) (m : Matcher) (object : String) (current : List String) (call : Call) :
    Step :=
  let banned := (r.banRecord? m object call).toList
  match r.fired m call.callee current with
  | [] =>
    let misplaced := r.automaton.inAlphabet m call.callee
    { states := current, fired := [], queries := [], triggers := []
      violations := banned ++ if misplaced then [r.orderingRecord object current call] else [] }
  | f :: fs =>
    let reached := Sorted.ofList ((f :: fs).map Firing.target)
    { states := reached, fired := f :: fs
      queries := distinct ((f :: fs).flatMap (queriesOf object call.site))
      triggers := r.triggers call.site reached
      violations := banned }

/-- The record of a life that ends in these states, if none of them accepts. -/
def completionRecord? (r : Rule) (settings : TypestateSettings) (object : String)
    (states : List String) (lastSite : Option String) : Option Violation :=
  if !settings.reportIncomplete || states.any r.automaton.isAccepting then none
  else some (.incompleteOperation r.className object lastSite (r.expectedNames states))

end Rule

end Misuse
