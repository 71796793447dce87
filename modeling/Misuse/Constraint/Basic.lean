import Misuse.Method
import Misuse.Sorted
import Misuse.Value

/-!
# Constraints

The correctness conditions of a rule: memberships, arithmetic, comparisons and predicates,
joined by connectives. A predicate may be guarded by a constraint and then applies only
while its guard holds. `Constraint.same` is equality up to what signatures bind their
results to.
-/

namespace Misuse

/-- A declared variable, or one piece of its value. -/
structure Variable where
  name : String
  type : String
  cut : Option Cut
  deriving DecidableEq, Repr, Inhabited

namespace Variable

def whole (name type : String) : Variable := ⟨name, type, none⟩

/-- The piece at an index of a text such as `AES/CBC/PKCS5Padding`. -/
def part (v : Variable) (index : Nat) : Variable := { v with cut := some ⟨index, "/"⟩ }

def algorithm (v : Variable) : Variable := v.part 0
def mode (v : Variable) : Variable := v.part 1
def padding (v : Variable) : Variable := v.part 2

def display (v : Variable) : String :=
  match v.cut with
  | some cut => "part(" ++ toString cut.index ++ ", \"" ++ cut.delimiter ++ "\", " ++ v.name ++ ")"
  | none => v.name

end Variable

/-! ## Arithmetic -/

inductive Operand where
  | var (v : Variable)
  | literal (value : Constant)
  | length (v : Variable)
  deriving DecidableEq, Repr, Inhabited

namespace Operand

def display : Operand → String
  | .var v => v.display
  | .literal c => c.display
  | .length v => "length(" ++ v.display ++ ")"

def mentions : Operand → List String
  | .var v | .length v => [v.name]
  | .literal _ => []

end Operand

inductive Arithmetic.Op where
  | add
  | sub
  | mod
  deriving DecidableEq, Repr, Inhabited

def Arithmetic.Op.display : Arithmetic.Op → String
  | .add => "+"
  | .sub => "-"
  | .mod => "%"

/-- `left op right` -/
structure Arithmetic where
  left : Operand
  op : Arithmetic.Op
  right : Operand
  deriving DecidableEq, Repr, Inhabited

namespace Arithmetic

/-- A lone operand is kept as its sum with 0. -/
def lift (operand : Operand) : Arithmetic := ⟨operand, .add, .literal (.int 0)⟩

def isLift (e : Arithmetic) : Bool := e.op == .add && e.right == .literal (.int 0)

def display (e : Arithmetic) : String :=
  if e.isLift then e.left.display
  else e.left.display ++ " " ++ e.op.display ++ " " ++ e.right.display

def mentions (e : Arithmetic) : List String := e.left.mentions ++ e.right.mentions

end Arithmetic

inductive Comparison where
  | eq
  | ne
  | gt
  | ge
  | lt
  | le
  deriving DecidableEq, Repr, Inhabited

def Comparison.display : Comparison → String
  | .eq => "=="
  | .ne => "!="
  | .gt => ">"
  | .ge => ">="
  | .lt => "<"
  | .le => "<="

/-! ## Predicates -/

/-- An argument of a predicate. -/
inductive Term where
  /-- The object itself. -/
  | self
  /-- Any value. -/
  | wildcard
  | var (v : Variable)
  | method (m : Signature)
  | type (name : String)
  deriving DecidableEq, Repr, Inhabited

namespace Term

def display : Term → String
  | .self => "this"
  | .wildcard => "_"
  | .var v => v.display
  | .method m => m.shortName
  | .type name => name

def var? : Term → Option Variable
  | .var v => some v
  | _ => none

def method? : Term → Option Signature
  | .method m => some m
  | _ => none

def type? : Term → Option String
  | .type name => some name
  | _ => none

def forgetResults : Term → Term
  | .method m => .method m.forgetResult
  | t => t

end Term

/-- A named relation of its terms, or its negation. -/
structure Atom where
  name : String
  terms : List Term
  negated : Bool
  deriving DecidableEq, Repr, Inhabited

namespace Atom

def display (a : Atom) : String :=
  (if a.negated then "!" else "") ++ a.name ++ "[" ++ Text.joined ", " (a.terms.map Term.display)
    ++ "]"

/-- The variables among the terms. -/
def mentions (a : Atom) : List String := (a.terms.filterMap Term.var?).map Variable.name

def forgetResults (a : Atom) : Atom := { a with terms := a.terms.map Term.forgetResults }

end Atom

/-! ## Constraints -/

inductive Connective where
  | and
  | or
  | implies
  deriving DecidableEq, Repr, Inhabited

def Connective.display : Connective → String
  | .and => "&&"
  | .or => "||"
  | .implies => "=>"

inductive Constraint where
  /-- Every value of the variable is one of the texts. -/
  | member (v : Variable) (allowed : List String)
  /-- The expression is not zero. -/
  | arithmetic (e : Arithmetic)
  | compare (left : Arithmetic) (op : Comparison) (right : Arithmetic)
  | connect (left : Constraint) (op : Connective) (right : Constraint)
  | atom (a : Atom)
  /-- The predicate applies only while the guard holds. -/
  | guarded (a : Atom) (guard : Constraint)
  /-- A declared exception; it constrains no value. -/
  | throws (method : Signature) (exception : String)
  deriving DecidableEq, Repr, Inhabited

namespace Constraint

def display : Constraint → String
  | .member v allowed => v.display ++ " in \x7b" ++ Text.joined ", " allowed ++ "\x7d"
  | .arithmetic e => e.display
  | .compare l op r => l.display ++ " " ++ op.display ++ " " ++ r.display
  | .connect l op r => "(" ++ l.display ++ " " ++ op.display ++ " " ++ r.display ++ ")"
  | .atom a | .guarded a _ => a.display
  | .throws m exception => m.shortName ++ " throws " ++ exception

/-- The variables a constraint mentions, guards aside. -/
def mentions : Constraint → List String
  | .member v _ => [v.name]
  | .arithmetic e => e.mentions
  | .compare l _ r => l.mentions ++ r.mentions
  | .connect l _ r => l.mentions ++ r.mentions
  | .atom a | .guarded a _ => a.mentions
  | .throws _ _ => []

def varNames (c : Constraint) : List String := Sorted.ofList c.mentions

def forgetResults : Constraint → Constraint
  | .connect l op r => .connect l.forgetResults op r.forgetResults
  | .atom a => .atom a.forgetResults
  | .guarded a g => .guarded a.forgetResults g.forgetResults
  | .throws m exception => .throws m.forgetResult exception
  | c => c

/-- Equal but for the bindings of results. -/
def same (c d : Constraint) : Bool := c.forgetResults == d.forgetResults

def isThrows : Constraint → Bool
  | .throws _ _ => true
  | _ => false

end Constraint

end Misuse
