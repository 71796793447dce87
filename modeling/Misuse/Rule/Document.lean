import Misuse.Json.Printer
import Misuse.Json.Reader
import Misuse.Json.Shape
import Misuse.Rule.Basic
import Misuse.Rule.Defect

/-!
# Rules as documents

The JSON shapes of rules and their parts. A document is a list of rules or a single rule;
one part of the wrong shape spoils all of it. Readers of recursive shapes take the depth
of the tree as fuel.
-/

namespace Misuse

open Json (Shape choose)

/-! ## Constants -/

namespace Constant

mutual

def toJson : Constant → Json
  | .int n => choose "Int" (.int n)
  | .bool b => choose "Bool" (.bool b)
  | .text s => choose "String" (.text s)
  | .array items => choose "Array" (.list (toJsonItems items))
  | .null => .text "Null"

def toJsonItems : List Constant → List Json
  | [] => []
  | c :: cs => toJson c :: toJsonItems cs

end

/-- An integer of 64 bits with sign. -/
def int64? (j : Json) : Option Int :=
  j.int?.bind fun n => if Integer.fits n then some n else none

def read? : Nat → Json → Option Constant
  | 0, _ => none
  | fuel + 1, j =>
    match j.choice? with
    | some ("Int", some j) => (int64? j).map .int
    | some ("Bool", some j) => j.bool?.map .bool
    | some ("String", some j) => j.text?.map .text
    | some ("Array", some j) => (j.list? (read? fuel)).map .array
    | some ("Null", none) | some ("Null", some .null) => some .null
    | _ => none

def ofJson? (j : Json) : Option Constant := read? (j.depth + 1) j

end Constant

/-! ## Methods -/

namespace Parameter

def toJson (p : Parameter) : Json := .record [("name", .text p.name), ("ty", .text p.type)]

def ofJson? (j : Json) : Option Parameter :=
  match j.fields? [("name", .required), ("ty", .required)] with
  | some [some name, some type] => do some ⟨← name.text?, ← type.text?⟩
  | _ => none

end Parameter

namespace Signature

def toJson (m : Signature) : Json :=
  .record
    [("name", .text m.name), ("params", .ofList Parameter.toJson m.params),
     ("ret", m.result.toJson)]

def ofJson? (j : Json) : Option Signature :=
  match j.fields? [("name", .required), ("params", .required), ("ret", .required)] with
  | some [some name, some params, some result] => do
    some ⟨← name.text?, ← params.list? Parameter.ofJson?, ← Parameter.ofJson? result⟩
  | _ => none

end Signature

/-! ## Variables -/

namespace Cut

def toJson (c : Cut) : Json :=
  .record [("index", .int c.index), ("delimiter", .text c.delimiter)]

def ofJson? (j : Json) : Option Cut :=
  match j.fields? [("index", .required), ("delimiter", .required)] with
  | some [some index, some delimiter] => do some ⟨← index.nat?, ← delimiter.text?⟩
  | _ => none

end Cut

namespace Variable

def toJson (v : Variable) : Json :=
  .record [("name", .text v.name), ("ty", .text v.type), ("splitter", .ofOption Cut.toJson v.cut)]

def ofJson? (j : Json) : Option Variable :=
  match j.fields? [("name", .required), ("ty", .required), ("splitter", .nullable)] with
  | some [some name, some type, some cut] => do
    some ⟨← name.text?, ← type.text?, ← cut.option? Cut.ofJson?⟩
  | _ => none

end Variable

/-! ## Arithmetic -/

namespace Operand

def toJson : Operand → Json
  | .var v => choose "Var" v.toJson
  | .literal c => choose "Literal" c.toJson
  | .length v => choose "Length" v.toJson

def ofJson? (j : Json) : Option Operand :=
  match j.choice? with
  | some ("Var", some j) => (Variable.ofJson? j).map .var
  | some ("Literal", some j) => (Constant.ofJson? j).map .literal
  | some ("Length", some j) => (Variable.ofJson? j).map .length
  | _ => none

end Operand

namespace Arithmetic

def Op.all : List Op := [.add, .sub, .mod]

def Op.name : Op → String
  | .add => "Add"
  | .sub => "Sub"
  | .mod => "Mod"

def Op.ofJson? (j : Json) : Option Op :=
  j.bareChoice?.bind fun name => Op.all.find? fun op => op.name == name

def toJson (e : Arithmetic) : Json :=
  .record [("left", e.left.toJson), ("right", e.right.toJson), ("op", .text e.op.name)]

def ofJson? (j : Json) : Option Arithmetic :=
  match j.fields? [("left", .required), ("right", .required), ("op", .required)] with
  | some [some left, some right, some op] => do
    some ⟨← Operand.ofJson? left, ← Op.ofJson? op, ← Operand.ofJson? right⟩
  | _ => none

end Arithmetic

namespace Comparison

def all : List Comparison := [.eq, .ne, .gt, .ge, .lt, .le]

def name : Comparison → String
  | .eq => "Eq"
  | .ne => "Neq"
  | .gt => "Gt"
  | .ge => "Ge"
  | .lt => "Lt"
  | .le => "Le"

def ofJson? (j : Json) : Option Comparison :=
  j.bareChoice?.bind fun name => all.find? fun op => op.name == name

end Comparison

namespace Connective

def all : List Connective := [.and, .or, .implies]

def name : Connective → String
  | .and => "And"
  | .or => "Or"
  | .implies => "Implies"

def ofJson? (j : Json) : Option Connective :=
  j.bareChoice?.bind fun name => all.find? fun op => op.name == name

end Connective

/-! ## Predicates and constraints -/

namespace Term

def toJson : Term → Json
  | .self => .text "This"
  | .wildcard => .text "Wildcard"
  | .var v => choose "Object" v.toJson
  | .method m => choose "Method" m.toJson
  | .type name => choose "TypeName" (.text name)

def ofJson? (j : Json) : Option Term :=
  match j.choice? with
  | some ("This", none) | some ("This", some .null) => some .self
  | some ("Wildcard", none) | some ("Wildcard", some .null) => some .wildcard
  | some ("Object", some j) => (Variable.ofJson? j).map .var
  | some ("Method", some j) => (Signature.ofJson? j).map .method
  | some ("TypeName", some j) => j.text?.map .type
  | _ => none

end Term

namespace Atom

/-- The fields of a predicate, its guard last. -/
def toJson (a : Atom) (guard : Json) : Json :=
  .record
    [("name", .text a.name), ("params", .ofList Term.toJson a.terms), ("negated", .bool a.negated),
     ("guard", guard)]

end Atom

namespace Constraint

def toJson : Constraint → Json
  | .member v allowed =>
    choose "Value" (.record [("var", v.toJson), ("allowed", .texts allowed)])
  | .arithmetic e => choose "Arithmetic" e.toJson
  | .compare l op r =>
    choose "Comparison"
      (.record [("left", l.toJson), ("right", r.toJson), ("op", .text op.name)])
  | .connect l op r =>
    choose "Logical" (.record [("left", l.toJson), ("right", r.toJson), ("op", .text op.name)])
  | .atom a => choose "Predicate" (a.toJson .null)
  | .guarded a g => choose "Predicate" (a.toJson g.toJson)
  | .throws m exception =>
    choose "Exception" (.record [("method", m.toJson), ("exception", .text exception)])

end Constraint

namespace Predicate

def toJson (p : Predicate) : Json := p.atom.toJson (.ofOption Constraint.toJson p.guard)

def shape : Shape :=
  [("name", .required), ("params", .required), ("negated", .required), ("guard", .nullable)]

/-- A predicate whose guard is read by the function given. -/
def readWith? (readGuard? : Json → Option Constraint) (j : Json) : Option Predicate :=
  match j.fields? shape with
  | some [some name, some terms, some negated, some guard] => do
    some ⟨⟨← name.text?, ← terms.list? Term.ofJson?, ← negated.bool?⟩,
      ← guard.option? readGuard?⟩
  | _ => none

end Predicate

namespace Constraint

def operandShape : Shape := [("left", .required), ("right", .required), ("op", .required)]

def memberOfJson? (j : Json) : Option Constraint :=
  match j.fields? [("var", .required), ("allowed", .required)] with
  | some [some v, some allowed] => do
    some (.member (← Variable.ofJson? v) (← allowed.list? Json.text?))
  | _ => none

def compareOfJson? (j : Json) : Option Constraint :=
  match j.fields? operandShape with
  | some [some l, some r, some op] => do
    some (.compare (← Arithmetic.ofJson? l) (← Comparison.ofJson? op) (← Arithmetic.ofJson? r))
  | _ => none

def throwsOfJson? (j : Json) : Option Constraint :=
  match j.fields? [("method", .required), ("exception", .required)] with
  | some [some m, some exception] => do
    some (.throws (← Signature.ofJson? m) (← exception.text?))
  | _ => none

def read? : Nat → Json → Option Constraint
  | 0, _ => none
  | fuel + 1, j =>
    match j.choice? with
    | some ("Value", some j) => memberOfJson? j
    | some ("Arithmetic", some j) => (Arithmetic.ofJson? j).map .arithmetic
    | some ("Comparison", some j) => compareOfJson? j
    | some ("Logical", some j) =>
      match j.fields? operandShape with
      | some [some l, some r, some op] => do
        some (.connect (← read? fuel l) (← Connective.ofJson? op) (← read? fuel r))
      | _ => none
    | some ("Predicate", some j) =>
      (Predicate.readWith? (read? fuel) j).map Predicate.toConstraint
    | some ("Exception", some j) => throwsOfJson? j
    | _ => none

def ofJson? (j : Json) : Option Constraint := read? (j.depth + 1) j

end Constraint

namespace Predicate

def ofJson? (j : Json) : Option Predicate := readWith? Constraint.ofJson? j

end Predicate

/-! ## Automata -/

/-- A set of names is written as a list and read in any order. -/
def nameSetOfJson? (j : Json) : Option (List String) :=
  (j.list? Json.text?).map Sorted.ofList

namespace State

def toJson (s : State) : Json :=
  .record [("id", .text s.id), ("accepting", .bool s.accepting)]

def ofJson? (j : Json) : Option State :=
  match j.fields? [("id", .required), ("accepting", .required)] with
  | some [some id, some accepting] => do some ⟨← id.text?, ← accepting.bool?⟩
  | _ => none

end State

namespace Transition

def toJson (t : Transition) : Json :=
  .record
    [("from", .text t.source), ("to", .text t.target), ("label", .ofList Signature.toJson t.label)]

def ofJson? (j : Json) : Option Transition :=
  match j.fields? [("from", .required), ("to", .required), ("label", .required)] with
  | some [some source, some target, some label] => do
    some ⟨← source.text?, ← target.text?, ← label.list? Signature.ofJson?⟩
  | _ => none

end Transition

namespace Automaton

def toJson (a : Automaton) : Json :=
  .record
    [("states", .ofList State.toJson a.states), ("initial", .texts a.initial),
     ("transitions", .ofList Transition.toJson a.transitions)]

def ofJson? (j : Json) : Option Automaton :=
  match j.fields? [("states", .required), ("initial", .required), ("transitions", .required)] with
  | some [some states, some initial, some transitions] => do
    some ⟨← states.list? State.ofJson?, ← nameSetOfJson? initial,
      ← transitions.list? Transition.ofJson?⟩
  | _ => none

end Automaton

/-! ## Rules -/

namespace Declaration

def toJson (d : Declaration) : Json := .record [("name", .text d.name), ("ty", .text d.type)]

def ofJson? (j : Json) : Option Declaration :=
  match j.fields? [("name", .required), ("ty", .required)] with
  | some [some name, some type] => do some ⟨← name.text?, ← type.text?⟩
  | _ => none

end Declaration

namespace Ban

def toJson (b : Ban) : Json :=
  .record
    [("method", b.method.toJson), ("alternatives", .ofList Signature.toJson b.alternatives),
     ("silent", .bool b.silent)]

def ofJson? (j : Json) : Option Ban :=
  match j.fields?
      [("method", .required), ("alternatives", .defaulted), ("silent", .defaulted)] with
  | some [some m, alternatives, silent] => do
    some ⟨← Signature.ofJson? m, ← Json.getD? (Json.list? Signature.ofJson?) [] alternatives,
      ← Json.getD? Json.bool? false silent⟩
  | _ => none

end Ban

namespace Effect

def toJson (e : Effect) : Json :=
  .record [("predicate", e.predicate.toJson), ("states", .ofOption .texts e.scope)]

def ofJson? (j : Json) : Option Effect :=
  match j.fields? [("predicate", .required), ("states", .nullable)] with
  | some [some p, some scope] => do
    some ⟨← Predicate.ofJson? p, ← scope.option? nameSetOfJson?⟩
  | _ => none

end Effect

namespace Rule

def toJson (r : Rule) : Json :=
  .record
    [("class_name", .text r.className), ("objects", .ofList Declaration.toJson r.declarations),
     ("forbidden", .ofList Ban.toJson r.bans), ("automaton", r.automaton.toJson),
     ("constraints", .ofList Constraint.toJson r.constraints),
     ("predicates", .ofList Effect.toJson r.effects)]

def shape : Shape :=
  [("class_name", .required), ("objects", .required), ("forbidden", .defaulted),
   ("automaton", .required), ("constraints", .defaulted), ("predicates", .defaulted)]

def ofJson? (j : Json) : Option Rule :=
  match j.fields? shape with
  | some [some className, some declarations, bans, some automaton, constraints, effects] => do
    some
      { className := ← className.text?
        declarations := ← declarations.list? Declaration.ofJson?
        bans := ← Json.getD? (Json.list? Ban.ofJson?) [] bans
        automaton := ← Automaton.ofJson? automaton
        constraints := ← Json.getD? (Json.list? Constraint.ofJson?) [] constraints
        effects := ← Json.getD? (Json.list? Effect.ofJson?) [] effects }
  | _ => none

/-! ## Documents -/

/-- A list of rules, or else one rule. -/
def documentRules? (j : Json) : Option (List Rule) :=
  match j.list? ofJson? with
  | some rules => some rules
  | none => (ofJson? j).map fun r => [r]

/-- The rules of a text, or why there are none. That a value does not have the shape of
rules is seen before what follows it. -/
def readDocument (s : String) : Except DocumentFault (List Rule) :=
  match Json.first? Json.documentRoom s with
  | none => .error .syntaxError
  | some (j, alone) =>
    match documentRules? j with
    | some rules => if alone then .ok rules else .error .syntaxError
    | none => .error .shape

/-- The text of a list of rules. -/
def writeDocument (rules : List Rule) : String := (Json.ofList toJson rules).pretty

end Rule

end Misuse
