/-!
# YAML trees

A scalar keeps how it is written, because only a plain one can stand for nothing, a truth
value or a number. Aliases are leaves: what an alias refers to may lie around it, so it is
kept beside the tree.
-/

namespace Misuse

namespace Yaml

inductive Style where
  | plain
  | single
  | double
  | literal
  | folded
  deriving DecidableEq, Repr, Inhabited

structure Scalar where
  text : String
  style : Style
  tag : Option String
  deriving DecidableEq, Repr, Inhabited

end Yaml

inductive Yaml where
  | scalar (s : Yaml.Scalar)
  | list (items : List Yaml)
  | record (fields : List (Yaml × Yaml))
  /-- Whatever holds a numbered slot of the document. -/
  | alias (slot : Nat)
  deriving Repr, Inhabited

namespace Yaml

def plain (text : String) : Yaml := .scalar ⟨text, .plain, none⟩

/-- What stands where nothing is written. -/
def void : Yaml := plain ""

def flag (b : Bool) : Yaml := plain (if b then "true" else "false")

def size (n : Nat) : Yaml := plain (Nat.repr n)

/-- A record of plainly named fields. -/
def named (fields : List (String × Yaml)) : Yaml :=
  .record (fields.map fun (name, y) => (plain name, y))

/-! ## Tags -/

def standardTags : String := "tag:yaml.org,2002:"
def nullTag : String := standardTags ++ "null"
def flagTag : String := standardTags ++ "bool"
def sizeTag : String := standardTags ++ "int"

/-! ## Characters -/

/-- Lines end at these characters; carriage returns and next-line characters become line
feeds before a text is read. -/
def isBreak (c : Char) : Bool := c == '\n' || c == '\u2028' || c == '\u2029'

/-- Space or tab. -/
def isGap (c : Char) : Bool := c == ' ' || c == '\t'

/-! ## Tokens -/

/-- What a text is cut into. Indentation is made explicit: a block opens with a token of its kind
and is closed by `blockEnd`. What becomes the key of a record has `key` in front of it. -/
inductive Token where
  /-- A directive that names the version of YAML. -/
  | version (major minor : Nat)
  /-- A directive that tells what a handle of tags stands for. -/
  | handle (name full : String)
  | documentStart
  | documentEnd
  | blockList
  | blockRecord
  | blockEnd
  | flowList
  | flowListEnd
  | flowRecord
  | flowRecordEnd
  | blockEntry
  | flowEntry
  | key
  | value
  | alias (name : String)
  | anchor (name : String)
  /-- A tag with the handle of its first part, which may be empty. -/
  | tag (handle suffix : String)
  | scalar (style : Style) (text : String)
  deriving DecidableEq, Repr, Inhabited

end Yaml

end Misuse
