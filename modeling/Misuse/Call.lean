import Misuse.Method
import Misuse.Sorted
import Misuse.Value

/-!
# Calls and bindings

What is observed on an object: its calls in order, and bindings of the variables of its
rule to values at call sites. A `View` is all that constraints and facts may see of it.
-/

namespace Misuse

/-- A place of a call that holds a value. -/
inductive Slot where
  | argument (index : Nat)
  | result
  deriving DecidableEq, Repr, Inhabited, Ord

namespace Slot

def display : Slot → String
  | .argument i => "arg" ++ toString i
  | .result => "ret"

end Slot

structure Call where
  site : String
  callee : Callee
  receiverType : String
  deriving DecidableEq, Repr, Inhabited

structure Binding where
  site : String
  var : String
  slot : Slot
  values : List Value
  deriving DecidableEq, Repr, Inhabited

namespace Binding

/-- Two bindings answer the same question about an object. -/
def samePlace (b c : Binding) : Bool :=
  b.site == c.site && b.var == c.var && b.slot == c.slot

end Binding

structure View where
  object : String
  /-- The identity of the object as a value. -/
  self : String
  /-- In order of arrival. -/
  bindings : List Binding
  /-- In order of observation. -/
  calls : List Call
  deriving DecidableEq, Repr, Inhabited

namespace View

def boundNames (v : View) : List String := Sorted.ofList (v.bindings.map Binding.var)

def isBound (v : View) (var : String) : Bool := v.bindings.any fun b => b.var == var

/-- Every value bound to a variable, with the site that bound it. -/
def valuesOf (v : View) (var : String) : List (String × Value) :=
  (v.bindings.filter fun b => b.var == var).flatMap fun b => b.values.map fun x => (b.site, x)

/-- The site of the first binding of any of the variables. -/
def firstSite? (v : View) (vars : List String) : Option String :=
  (v.bindings.find? fun b => vars.contains b.var).map Binding.site

def lastSite? (v : View) : Option String := v.calls.getLast?.map Call.site

end View

end Misuse
