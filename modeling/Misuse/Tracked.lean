import Misuse.Typestate

/-!
# Tracked objects

One object under a rule: its states, the calls observed on it, and its bindings, which are
only ever appended to. Calls are queued when they are observed and applied in that order.
-/

namespace Misuse

structure Tracked where
  id : String
  /-- The identity of the object as a value. -/
  self : String
  rule : Rule
  /-- An increasing list. -/
  states : List String
  /-- The calls that have been applied. -/
  calls : List Call
  /-- The calls that have been observed only. -/
  queued : List Call
  bindings : List Binding
  /-- The constraints that wait for a variable. -/
  pending : List Nat
  /-- The effects that are due and not yet published. -/
  due : List Trigger
  deriving DecidableEq, Repr, Inhabited

namespace Tracked

def start (id self : String) (rule : Rule) : Tracked :=
  ⟨id, self, rule, rule.automaton.initial, [], [], [], [], []⟩

def view (o : Tracked) : View := ⟨o.id, o.self, o.bindings, o.calls⟩

/-- Some state accepts. -/
def isAccepting (o : Tracked) : Bool := o.states.any o.rule.automaton.isAccepting

def lastSite? (o : Tracked) : Option String := o.view.lastSite?

def observe (o : Tracked) (call : Call) : Tracked := { o with queued := o.queued ++ [call] }

/-! ## Bindings -/

def hasPlace (o : Tracked) (b : Binding) : Bool := o.bindings.any b.samePlace

/-- Append a binding unless its place is taken. -/
def bind (o : Tracked) (b : Binding) : Tracked :=
  if o.hasPlace b then o else { o with bindings := o.bindings ++ [b] }

/-! ## Calls -/

/-- An object with what the calls applied so far ask and violate. -/
structure Progress where
  object : Tracked
  queries : List Query
  violations : List Violation
  deriving DecidableEq, Repr, Inhabited

def applyCall (m : Matcher) (p : Progress) (call : Call) : Progress :=
  let o := p.object
  let step := o.rule.advance m o.id o.states call
  { object :=
      { o with states := step.states, calls := o.calls ++ [call], due := o.due ++ step.triggers }
    queries := p.queries ++ step.queries
    violations := p.violations ++ step.violations }

/-- Apply the queued calls in order. -/
def applyQueued (m : Matcher) (o : Tracked) : Progress :=
  o.queued.foldl (applyCall m) ⟨{ o with queued := [] }, [], []⟩

/-! ## Laws -/

theorem bind_of_hasPlace {o : Tracked} {b : Binding} (h : o.hasPlace b = true) :
    o.bind b = o := by
  simp [bind, h]

theorem bindings_bind (o : Tracked) (b : Binding) :
    (o.bind b).bindings = if o.hasPlace b then o.bindings else o.bindings ++ [b] := by
  unfold bind
  split <;> rfl

end Tracked

end Misuse
