import Misuse.Yaml.Anchor
import Misuse.Yaml.Number

/-!
# Reading typed values

A text may be written in any style. Truth values and sizes are plain, or literal with a
tag that says so. An empty plain scalar stands for an empty list, for a record without
fields, and, if it has no tag, for an absent option. Aliases are followed where a value is
read, and nowhere else.
-/

namespace Misuse.Yaml

def spellsNull (s : String) : Bool := ["null", "Null", "NULL", "~"].contains s

def spelledFlag? (s : String) : Option Bool :=
  if ["true", "True", "TRUE"].contains s then some true
  else if ["false", "False", "FALSE"].contains s then some false
  else none

/-- May a scalar stand for a value of the kind a tag names? -/
def Scalar.mayBe (s : Scalar) (tag : String) : Bool :=
  s.style == .plain || (s.style == .literal && s.tag == some tag)

def isVoid : Yaml → Bool
  | .scalar s => s.style == .plain && s.text.isEmpty
  | _ => false

/-! ## Scalars -/

def text? (as : Anchors) (y : Yaml) : Option String :=
  match as.follow y with
  | .scalar s => some s.text
  | _ => none

def flag? (as : Anchors) (y : Yaml) : Option Bool :=
  match as.follow y with
  | .scalar s => if s.mayBe flagTag then spelledFlag? s.text else none
  | _ => none

/-- A size up to a limit. -/
def size? (limit : Nat) (as : Anchors) (y : Yaml) : Option Nat :=
  match as.follow y with
  | .scalar s => if s.mayBe sizeTag then Number.size? limit s.text else none
  | _ => none

/-- What an option is: absent, present, or neither. Only a plain scalar is ever absent, and
one whose tag says so has to be. -/
def presence? : Yaml → Option Bool
  | .scalar s =>
    match s.style, s.tag with
    | .plain, none => some (!(s.text.isEmpty || spellsNull s.text))
    | .plain, some tag =>
      if tag = nullTag then (if spellsNull s.text then some false else none) else some true
    | _, _ => some true
  | _ => some true

/-- Nothing, or something that is read. -/
def option? (read? : Anchors → Yaml → Option α) (as : Anchors) (y : Yaml) :
    Option (Option α) := do
  if ← presence? (as.follow y) then (read? as y).map some else some none

/-! ## Collections -/

def list? (read? : Anchors → Yaml → Option α) (as : Anchors) (y : Yaml) : Option (List α) :=
  match as.follow y with
  | .list items => items.mapM (read? as)
  | y => if y.isVoid then some [] else none

/-- What a record may hold besides its known fields. -/
inductive Others where
  | refused
  | ignored
  deriving DecidableEq, Repr

/-- The field of a name, if any: a repeated one is refused. -/
def named? (fields : List (String × Yaml)) (name : String) : Option (Option Yaml) :=
  match fields.filter fun f => f.1 == name with
  | [] => some none
  | [f] => some (some f.2)
  | _ :: _ :: _ => none

/-- The known fields of a record in the order of their names, `none` for a missing one.
Every field has a scalar for its name. -/
def fields? (others : Others) (names : List String) (as : Anchors) (y : Yaml) :
    Option (List (Option Yaml)) :=
  match as.follow y with
  | .record fields => do
    let fields ← fields.mapM fun (key, y) => (text? as key).map fun name => (name, y)
    if others = .refused ∧ !(fields.all fun f => names.contains f.1) then none
    else names.mapM (named? fields)
  | y => if y.isVoid then some (names.map fun _ => none) else none

/-- A field that has a default. -/
def getD? (read? : Anchors → Yaml → Option α) (default : α) (as : Anchors) :
    Option Yaml → Option α
  | none => some default
  | some y => read? as y

end Misuse.Yaml
