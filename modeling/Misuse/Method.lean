import Misuse.Text.Basic

/-!
# Methods

Rules name methods by signature, programs call them. A parameter of a signature may bind
its argument to a variable of the rule; `_` binds nothing. What a signature binds the
result to does not belong to the identity of its method (`Signature.same`).
-/

namespace Misuse

structure Parameter where
  name : String
  type : String
  deriving DecidableEq, Repr, Inhabited

namespace Parameter

/-- Binds nothing. -/
def unnamed : Parameter := ⟨"_", "void"⟩

def isBound (p : Parameter) : Bool := p.name != "_"

/-- `AnyType` accepts every argument type. -/
def accepts (p : Parameter) (type : String) : Bool := p.type == "AnyType" || p.type == type

end Parameter

structure Signature where
  name : String
  params : List Parameter
  result : Parameter
  deriving DecidableEq, Repr, Inhabited

namespace Signature

/-- The signature of a method whose result is not bound. -/
def ofParams (name : String) (params : List Parameter) : Signature :=
  ⟨name, params, .unnamed⟩

def forgetResult (m : Signature) : Signature := ⟨m.name, m.params, .unnamed⟩

/-- Equal but for the binding of the result. -/
def same (m n : Signature) : Bool := m.forgetResult == n.forgetResult

def owner (m : Signature) : String := Text.owner m.name
def shortName (m : Signature) : String := Text.shortName m.name

def acceptsAll : List Parameter → List String → Bool
  | [], [] => true
  | p :: ps, t :: ts => p.accepts t && acceptsAll ps ts
  | _, _ => false

/-- The parameters accept argument types of this number, one by one. -/
def accepts (m : Signature) (types : List String) : Bool := acceptsAll m.params types

/-- Positions and names of the parameters that bind a variable. -/
def boundParams (m : Signature) : List (Nat × String) :=
  (m.params.zipIdx.filter fun (p, _) => p.isBound).map fun (p, i) => (i, p.name)

/-- `ret = name(type var, …);`, the first part only if the result is bound. -/
def display (m : Signature) : String :=
  let params := Text.joined ", " (m.params.map fun p => p.type ++ " " ++ p.name)
  let call := m.name ++ "(" ++ params ++ ");"
  if m.result.isBound then m.result.name ++ " = " ++ call else call

end Signature

/-- The target of a call in the program. -/
structure Callee where
  owner : String
  name : String
  types : List String
  deriving DecidableEq, Repr, Inhabited

namespace Callee

def ofQualified (name : String) (types : List String) : Callee :=
  ⟨Text.owner name, Text.shortName name, types⟩

def qualifiedName (c : Callee) : String :=
  if c.owner.isEmpty then c.name else c.owner ++ "." ++ c.name

def display (c : Callee) : String :=
  c.qualifiedName ++ "(" ++ Text.joined ", " c.types ++ ")"

end Callee

end Misuse
