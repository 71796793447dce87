import Misuse.Yaml.Basic

/-!
# What aliases refer to

An anchor puts a node into a slot. Slots are numbered by the names that were known when a
node began, so that a name which is given out again may share its slot with the next new
one. A slot belongs to the node that began last; an alias is followed when its value is
read, after the whole document.
-/

namespace Misuse

namespace Yaml

/-- A node that was given a slot. -/
structure Anchored where
  slot : Nat
  /-- How many anchored nodes began before it. -/
  order : Nat
  tree : Yaml
  deriving Repr, Inhabited

abbrev Anchors := List Anchored

namespace Anchors

/-- The later of two nodes. -/
def later (a : Anchored) : Option Anchored → Anchored
  | none => a
  | some b => if a.order < b.order then b else a

/-- The node that began last among those of a slot. -/
def last? (slot : Nat) : Anchors → Option Anchored
  | [] => none
  | a :: as => if a.slot = slot then some (later a (last? slot as)) else last? slot as

/-- The tree itself, or what an alias refers to. -/
def follow (as : Anchors) : Yaml → Yaml
  | .alias slot => ((last? slot as).map Anchored.tree).getD (.alias slot)
  | y => y

end Anchors

/-- A tree together with what its aliases refer to. -/
structure Document where
  root : Yaml
  anchors : Anchors
  deriving Repr, Inhabited

/-- A document without anchors. -/
def toDocument (y : Yaml) : Document := ⟨y, []⟩

end Yaml

end Misuse
