import Misuse.Call
import Misuse.Rule.Basic

/-!
# Partitioning constraints

The constraints of a rule fall into three parts for one object: those decided from its own
view, those that require a predicate from elsewhere, and those that wait for a variable.
A requirement is a looked-up predicate, or a disjunction of such predicates whose last
operand is one of them.
-/

namespace Misuse

/-- Which variables play a special part. -/
structure Policy where
  /-- Variables that only identify; one left unbound holds no constraint back. -/
  keying : List String
  /-- Variables whose sites never anchor a requirement. -/
  unanchored : List String
  deriving DecidableEq, Repr, Inhabited

namespace Policy

def default : Policy := ⟨["speccedKey"], ["transformation"]⟩

end Policy

inductive Requirement where
  | single (p : Predicate)
  | anyOf (a : Alternatives)
  deriving DecidableEq, Repr, Inhabited

namespace Requirement

/-- The predicates of which one has to hold. -/
def members : Requirement → List Predicate
  | .single p => [p]
  | .anyOf a => a.members

def display : Requirement → String
  | .single p => p.display
  | .anyOf a => a.display

def isAlternative : Requirement → Bool
  | .single _ => false
  | .anyOf _ => true

/-- The requirement a constraint is, if it is one. -/
def ofConstraint? : Constraint → Option Requirement
  | .atom a => if a.isLookup then some (.single ⟨a, none⟩) else none
  | .guarded a g => if a.isLookup then some (.single ⟨a, some g⟩) else none
  | .connect l op r =>
    match r.predicate? with
    | some p => if p.isLookup then (Constraint.connect l op r).alternatives?.map .anyOf else none
    | none => none
  | _ => none

end Requirement

/-- A requirement with the constraint it comes from and the site a report points at. -/
structure Required where
  requirement : Requirement
  index : Nat
  anchor : Option String
  deriving DecidableEq, Repr, Inhabited

structure Partition where
  direct : List Nat
  required : List Required
  pending : List Nat
  deriving DecidableEq, Repr, Inhabited

namespace Partition

def isEmpty (p : Partition) : Bool :=
  p.direct.isEmpty && p.required.isEmpty && p.pending.isEmpty

end Partition

/-- The part a constraint falls into. -/
inductive Placement where
  | direct
  | required (r : Requirement)
  | pending
  deriving DecidableEq, Repr, Inhabited

namespace Policy

/-- Every variable is bound or only identifies. -/
def isReady (policy : Policy) (view : View) (c : Constraint) : Bool :=
  c.mentions.all fun var => view.isBound var || policy.keying.contains var

def place (policy : Policy) (view : View) (c : Constraint) : Placement :=
  if policy.isReady view c then
    match Requirement.ofConstraint? c with
    | some r => .required r
    | none => .direct
  else .pending

/-- The first site that binds a variable of some member. -/
def anchor? (policy : Policy) (view : View) (r : Requirement) : Option String :=
  view.firstSite? ((r.members.flatMap fun p => p.atom.mentions).filter fun var =>
    !policy.unanchored.contains var)

/-- The constraints at the indices with their parts; declared exceptions and indices out of
range are left out. -/
def placements (policy : Policy) (rule : Rule) (view : View) (indices : List Nat) :
    List (Nat × Placement) :=
  indices.filterMap fun i =>
    match rule.constraints[i]? with
    | some c => if c.isThrows then none else some (i, policy.place view c)
    | none => none

def partition (policy : Policy) (rule : Rule) (view : View) (indices : List Nat) : Partition :=
  let placed := policy.placements rule view indices
  { direct := placed.filterMap fun (i, p) => if p = .direct then some i else none
    required := placed.filterMap fun (i, p) =>
      match p with
      | .required r => some ⟨r, i, policy.anchor? view r⟩
      | _ => none
    pending := placed.filterMap fun (i, p) => if p = .pending then some i else none }

end Policy

namespace Rule

def constraintIndices (r : Rule) : List Nat := List.range r.constraints.length

end Rule

end Misuse
