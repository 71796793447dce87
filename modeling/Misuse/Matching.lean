import Misuse.Hierarchy
import Misuse.Method

/-!
# Matching calls with signatures

A call matches a signature by short name and argument types. The match is exact if the
owners agree, fuzzy if the called owner is a subtype of the signature's.
-/

namespace Misuse

inductive Closeness where
  | exact
  | fuzzy
  deriving DecidableEq, Repr, Inhabited

namespace Closeness

def display : Closeness → String
  | .exact => "Exact"
  | .fuzzy => "Fuzzy"

end Closeness

/-- How calls are compared with signatures. -/
structure Matcher where
  subtyping : Subtyping
  /-- Accept calls on subtypes. -/
  fuzzy : Bool

namespace Matcher

def closeness? (m : Matcher) (entry : Signature) (called : Callee) : Option Closeness :=
  if entry.shortName == called.name && entry.accepts called.types then
    if entry.owner == called.owner then some .exact
    else if m.fuzzy && m.subtyping called.owner entry.owner then some .fuzzy
    else none
  else none

def accepts (m : Matcher) (entry : Signature) (called : Callee) : Bool :=
  (m.closeness? entry called).isSome

/-- The first exact entry of a label, or else its first fuzzy one. -/
def best? (m : Matcher) (label : List Signature) (called : Callee) :
    Option (Signature × Closeness) :=
  match label.find? fun entry => m.closeness? entry called == some .exact with
  | some entry => some (entry, .exact)
  | none =>
    (label.find? fun entry => m.closeness? entry called == some .fuzzy).map fun entry =>
      (entry, .fuzzy)

end Matcher

end Misuse
