/-!
# Class hierarchies

Declared pairs of a type and a direct supertype, in order and without repeats. A type is a
subtype of itself and of what a chain of declared pairs leads to.

What can be reached in a graph is found by a depth-first walk with a stack. A node is visited
when it is first taken from the stack, and its successors are then put on top of it. Each node is
expanded at most once, so a walk is over after as many steps as the stack and the graph have
entries.
-/

namespace Misuse

/-! ## Walks -/

section Walk

variable {α : Type} [DecidableEq α]

/-- The visited nodes in reverse: `seen`, and what the stack leads to. -/
def walkFrom (next : α → List α) : Nat → List α → List α → List α
  | 0, _, seen => seen
  | _ + 1, [], seen => seen
  | fuel + 1, a :: stack, seen =>
    if a ∈ seen then walkFrom next fuel stack seen
    else walkFrom next fuel (next a ++ stack) (a :: seen)

/-- The nodes in the order of their visits, those `seen` before first. -/
def walk (next : α → List α) (edges : Nat) (stack seen : List α) : List α :=
  (walkFrom next (stack.length + edges) stack seen).reverse

end Walk

/-! ## Declared pairs -/

/-- Decides whether the first type is the second or below it. -/
abbrev Subtyping := String → String → Bool

/-- No type is below another. -/
def exactTypes : Subtyping := fun child parent => child == parent

structure Hierarchy where
  edges : List (String × String)
  deriving DecidableEq, Repr, Inhabited

namespace Hierarchy

def empty : Hierarchy := ⟨[]⟩

/-- Declare a direct supertype; a repeated declaration changes nothing. -/
def declare (h : Hierarchy) (child parent : String) : Hierarchy :=
  if h.edges.contains (child, parent) then h else ⟨h.edges ++ [(child, parent)]⟩

def ofList (pairs : List (String × String)) : Hierarchy :=
  pairs.foldl (fun h (child, parent) => h.declare child parent) empty

def direct (h : Hierarchy) (type : String) : List String :=
  (h.edges.filter fun e => e.1 == type).map Prod.snd

/-- All supertypes but the type itself, in the order of a walk that follows the supertype
declared last first. -/
def supertypes (h : Hierarchy) (type : String) : List String :=
  (walk (fun t => (h.direct t).reverse) h.edges.length (h.direct type).reverse [type]).tail

def isSubtype (h : Hierarchy) : Subtyping :=
  fun child parent => child == parent || (h.supertypes child).contains parent

end Hierarchy

end Misuse
