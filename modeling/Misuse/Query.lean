import Misuse.Call

/-!
# Queries

A fired transition asks for the values of the variables it binds. A recording answers
queries by call site and slot.
-/

namespace Misuse

structure Query where
  object : String
  site : String
  var : String
  slot : Slot
  deriving DecidableEq, Repr, Inhabited, Ord

namespace Query

def display (q : Query) : String :=
  q.object ++ "@" ++ q.site ++ "[" ++ q.slot.display ++ " -> " ++ q.var ++ "]"

/-- The binding that answers a query. -/
def bind (q : Query) (values : List Value) : Binding := ⟨q.site, q.var, q.slot, values⟩

def answeredBy (q : Query) (b : Binding) : Bool := (q.bind []).samePlace b

end Query

/-- Recorded values by site and slot. -/
structure Recording where
  entries : List ((String × Slot) × List Value)
  deriving DecidableEq, Repr, Inhabited

namespace Recording

def empty : Recording := ⟨[]⟩

def setIn (place : String × Slot) (values : List Value) :
    List ((String × Slot) × List Value) → List ((String × Slot) × List Value)
  | [] => [(place, values)]
  | e :: r => if e.1 == place then (place, values) :: r else e :: setIn place values r

/-- A later recording of a place replaces an earlier one. -/
def set (rec : Recording) (site : String) (slot : Slot) (values : List Value) : Recording :=
  ⟨setIn (site, slot) values rec.entries⟩

def ofList (entries : List (String × Slot × List Value)) : Recording :=
  entries.foldl (fun rec (site, slot, values) => rec.set site slot values) empty

def size (rec : Recording) : Nat := rec.entries.length

def answer? (rec : Recording) (q : Query) : Option (List Value) :=
  (rec.entries.find? fun e => e.1 == (q.site, q.slot)).map Prod.snd

/-- What is said of a query that has no recorded values. -/
def missingMessage (q : Query) : String := "Cannot resolve " ++ q.display ++ ": no recorded values"

end Recording

end Misuse
