/-!
# JSON trees

Records keep their fields in the order they are written, repeated names included.
Numbers are integers where they can be; any other number keeps its spelling.
-/

namespace Misuse

inductive Json where
  | null
  | bool (value : Bool)
  | int (value : Int)
  /-- A number that is no integer of 64 bits, as it is spelled. -/
  | decimal (spelling : String)
  | text (value : String)
  | list (items : List Json)
  | record (fields : List (String × Json))
  deriving Repr, Inhabited

namespace Json

mutual

/-- How deep lists and records nest: 0 for a scalar. -/
def depth : Json → Nat
  | .list items => depthOfItems items + 1
  | .record fields => depthOfFields fields + 1
  | _ => 0

def depthOfItems : List Json → Nat
  | [] => 0
  | j :: js => max (depth j) (depthOfItems js)

def depthOfFields : List (String × Json) → Nat
  | [] => 0
  | (_, j) :: fs => max (depth j) (depthOfFields fs)

end

def ofOption (toJson : α → Json) : Option α → Json
  | none => .null
  | some a => toJson a

def ofList (toJson : α → Json) (items : List α) : Json := .list (items.map toJson)

def texts (items : List String) : Json := ofList .text items

/-! ## Reading scalars -/

def text? : Json → Option String
  | .text s => some s
  | _ => none

def bool? : Json → Option Bool
  | .bool b => some b
  | _ => none

def int? : Json → Option Int
  | .int n => some n
  | _ => none

/-- A size: an integer that is not negative. -/
def nat? : Json → Option Nat
  | .int (.ofNat n) => some n
  | _ => none

def list? (read? : Json → Option α) : Json → Option (List α)
  | .list items => items.mapM read?
  | _ => none

/-- `null` stands for nothing. -/
def option? (read? : Json → Option α) : Json → Option (Option α)
  | .null => some none
  | j => (read? j).map some

end Json

end Misuse
