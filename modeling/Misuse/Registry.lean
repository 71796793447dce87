import Misuse.Distinct
import Misuse.Query

/-!
# The registry of queries

Queries wait with their listeners until they are answered, and keep their first answer. A
listener is called once, with the binding that answers its query: at once if the answer is
known. Listeners are plain names here; calling one is a delivery to it.
-/

namespace Misuse

/-- A binding handed to a listener. -/
structure Delivery (listener : Type) where
  target : listener
  binding : Binding
  deriving DecidableEq, Repr

inductive Registry.Status (listener : Type) where
  | waiting (listeners : List listener)
  | answered (values : List Value)
  deriving DecidableEq, Repr

structure Registry (listener : Type) where
  /-- In order of first mention. -/
  entries : List (Query × Registry.Status listener)
  deriving DecidableEq, Repr

namespace Registry

variable {listener : Type}

def empty : Registry listener := ⟨[]⟩

def status? (r : Registry listener) (q : Query) : Option (Status listener) :=
  (r.entries.find? fun e => e.1 == q).map Prod.snd

def setIn (q : Query) (s : Status listener) :
    List (Query × Status listener) → List (Query × Status listener)
  | [] => [(q, s)]
  | e :: r => if e.1 == q then (q, s) :: r else e :: setIn q s r

def set (r : Registry listener) (q : Query) (s : Status listener) : Registry listener :=
  ⟨setIn q s r.entries⟩

def knows (r : Registry listener) (q : Query) : Bool := (r.status? q).isSome

/-- Make a query known; it waits unless it is known already. Says whether it is new. -/
def request (r : Registry listener) (q : Query) : Registry listener × Bool :=
  if r.knows q then (r, false) else (r.set q (.waiting []), true)

/-- Attach a listener; it is delivered to at once if the query is answered. -/
def listen (r : Registry listener) (q : Query) (target : listener) :
    Registry listener × List (Delivery listener) :=
  match r.status? q with
  | none => (r.set q (.waiting [target]), [])
  | some (.waiting ls) => (r.set q (.waiting (ls ++ [target])), [])
  | some (.answered values) => (r, [⟨target, q.bind values⟩])

/-- Answer a query; only the first answer counts. Says how many listeners are delivered to. -/
def resolve (r : Registry listener) (q : Query) (values : List Value) :
    Registry listener × List (Delivery listener) × Nat :=
  match r.status? q with
  | none => (r.set q (.answered values), [], 0)
  | some (.waiting ls) =>
    (r.set q (.answered values), ls.map fun l => ⟨l, q.bind values⟩, ls.length)
  | some (.answered _) => (r, [], 0)

def isPending (r : Registry listener) (q : Query) : Bool :=
  match r.status? q with
  | some (.waiting _) => true
  | _ => false

def values? (r : Registry listener) (q : Query) : Option (List Value) :=
  match r.status? q with
  | some (.answered values) => some values
  | _ => none

/-- The waiting queries, as an increasing list. -/
def pending (r : Registry listener) : List Query :=
  Sorted.ofList (r.entries.filterMap fun (q, s) =>
    match s with
    | .waiting _ => some q
    | .answered _ => none)

end Registry

end Misuse
