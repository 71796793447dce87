import Misuse.Evaluation
import Misuse.FactStore
import Misuse.Rule.Basic

/-!
# Keying facts by values

Between the view of an object and the fact store: the terms of a predicate become columns
of keys, one for each value the view has for a variable. An effect publishes one fact for
each row of the product of its columns; a lookup asks for each row. Where values are
missing or the rows are too many, establishing widens to every value, retracting does
nothing, and a lookup is unclear.
-/

namespace Misuse

namespace Term

/-- The keys a term stands for, increasing; a variable has those of its values that have
one. -/
def keys (view : View) : Term → List Key
  | .self => [.object view.self]
  | .wildcard | .method _ | .type _ => [.any]
  | .var v => Sorted.ofList ((view.valuesOf v.name).filterMap fun (_, x) => Key.ofValue? v x)

end Term

namespace Key

/-- The number of rows of a product. -/
def rowCount : List (List Key) → Nat
  | [] => 1
  | column :: columns => column.length * rowCount columns

/-- The rows of a product, those with the earlier keys first. -/
def rows : List (List Key) → List Args
  | [] => [[]]
  | column :: columns => column.flatMap fun k => (rows columns).map (k :: ·)

end Key

namespace Atom

def columns (view : View) (a : Atom) : List (List Key) := a.terms.map (Term.keys view)

/-- The columns if every term has a key and the rows are within the limit. -/
def exactColumns? (view : View) (limit : Nat) (a : Atom) : Option (List (List Key)) :=
  let columns := a.columns view
  if columns.any List.isEmpty || decide (Key.rowCount columns > limit) then none
  else some columns

/-- The columns with a missing one widened to every value, and with all that have several
keys if the rows exceed the limit. -/
def widenedColumns (view : View) (limit : Nat) (a : Atom) : List (List Key) :=
  let columns := (a.columns view).map fun c => if c.isEmpty then [Key.any] else c
  if Key.rowCount columns > limit then
    columns.map fun c => if c.length > 1 then [Key.any] else c
  else columns

/-- The argument lists of the facts an atom produces. -/
def published (view : View) (cap : Nat) (a : Atom) : List Args :=
  if a.negated then
    match a.exactColumns? view (max cap 1) with
    | some columns => Key.rows columns
    | none => []
  else Key.rows (a.widenedColumns view (max cap 1))

end Atom

/-- An effect of a rule that is due: its index, the state reached, the call that led there. -/
structure Trigger where
  effect : Nat
  state : String
  site : String
  deriving DecidableEq, Repr, Inhabited

namespace Rule

/-- The facts a due effect produces; none if the rule has no such effect. -/
def factsOf (r : Rule) (view : View) (cap : Nat) (t : Trigger) : List Fact :=
  match r.effects[t.effect]? with
  | none => []
  | some e =>
    let a := e.predicate.atom
    (a.published view cap).map fun args =>
      ⟨a.name, args, a.negated, ⟨r.className, view.object, t.state, t.site⟩⟩

end Rule

namespace FactStore

/-- Some row of the predicate is visible; its negation holds if none is. -/
def lookup (s : FactStore) (cap : Nat) : Lookup := fun p view =>
  match p.atom.exactColumns? view (max cap 1) with
  | none => .plain .unclear
  | some columns =>
    let found := (Key.rows columns).any fun args => s.query p.atom.name args
    .plain (.ofBool (found != p.atom.negated))

end FactStore

end Misuse
