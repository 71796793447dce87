import Misuse.Call
import Misuse.Constraint.Basic

/-!
# Facts

A fact applies a predicate to the identities of values, so that every object that sees the
same value can find it. Argument lists unify position by position. A retraction is more
careful: it removes a wildcard only where it names one itself.
-/

namespace Misuse

/-- The identity of an argument. -/
inductive Key where
  /-- A runtime object. -/
  | object (id : String)
  /-- A literal, by its text. -/
  | constant (text : String)
  /-- Every value. -/
  | any
  deriving DecidableEq, Repr, Inhabited, Ord

namespace Key

/-- The text of a literal in lower case; one without a text shows what it is. -/
def textOfConstant (c : Constant) : String :=
  match c.asText? with
  | some s => Text.lower s
  | none => c.display

/-- The identity of a value, of its piece if the variable has a cut. -/
def ofValue? (v : Variable) (x : Value) : Option Key :=
  match x.content with
  | .object id => some (.object id)
  | .constant c => (cutText? v.cut (textOfConstant c)).map .constant
  | .unknown => none

def display : Key → String
  | .object id => id
  | .constant text => "\"" ++ text ++ "\""
  | .any => "_"

/-- Equal, or one side is every value. -/
def unifies (a b : Key) : Bool := a == .any || b == .any || a == b

/-- A retraction of `a` removes `b`. -/
def covers (a b : Key) : Bool := a == .any || a == b

def pointwise (rel : Key → Key → Bool) : List Key → List Key → Bool
  | [], [] => true
  | a :: as, b :: bs => rel a b && pointwise rel as bs
  | _, _ => false

end Key

abbrev Args := List Key

namespace Args

def unify (stored query : Args) : Bool := Key.pointwise Key.unifies stored query

def cover (retraction stored : Args) : Bool := Key.pointwise Key.covers retraction stored

def hasAny (args : Args) : Bool := args.contains .any

/-- Lists are compared key by key, a list after its beginnings. -/
def isLess (a b : Args) : Bool := compare a b == .lt

end Args

/-- Who established or retracted a fact, and where. -/
structure Origin where
  rule : String
  object : String
  state : String
  site : String
  deriving DecidableEq, Repr, Inhabited

structure Fact where
  name : String
  args : Args
  /-- Retracts what was established earlier. -/
  negated : Bool
  origin : Origin
  deriving DecidableEq, Repr, Inhabited

namespace Fact

def display (f : Fact) : String :=
  (if f.negated then "!" else "") ++ f.name ++ "[" ++ Text.joined ", " (f.args.map Key.display)
    ++ "]"

end Fact

end Misuse
