import Misuse.Json.Basic

/-!
# Shapes of records and choices

A record of a known shape may be written with named fields, in any order and among
unknown ones, or as the list of its fields in order. A choice is written as its name, or
as a record of one field, the name, that holds what is chosen.
-/

namespace Misuse.Json

/-- What a missing field means. -/
inductive Presence where
  | required
  /-- Missing by name is `null`; in a list the place has to be filled. -/
  | nullable
  /-- May be missing in both forms. -/
  | defaulted
  deriving DecidableEq, Repr

abbrev Shape := List (String × Presence)

/-- The one field of a name, if any: a repeated known name is refused. -/
def named? (fields : List (String × Json)) : String × Presence → Option (Option Json)
  | (name, presence) =>
    match (fields.filter fun f => f.1 == name), presence with
    | [], .required => none
    | [], .nullable => some (some .null)
    | [], .defaulted => some none
    | [f], _ => some (some f.2)
    | _ :: _ :: _, _ => none

/-- Fields in the order of the shape, from a list of them. -/
def listed? : Shape → List Json → Option (List (Option Json))
  | [], [] => some []
  | [], _ :: _ => none
  | _ :: shape, j :: js => (listed? shape js).map (some j :: ·)
  | (_, .defaulted) :: shape, [] => (listed? shape []).map (none :: ·)
  | _ :: _, [] => none

/-- The fields of a record in the order of its shape; `none` inside for a defaulted one
that is missing. -/
def fields? (shape : Shape) : Json → Option (List (Option Json))
  | .record fields => shape.mapM (named? fields)
  | .list items => listed? shape items
  | _ => none

/-- The name of a choice, with its content if it is written as a record. -/
def choice? : Json → Option (String × Option Json)
  | .text name => some (name, none)
  | .record [(name, j)] => some (name, some j)
  | _ => none

/-- The name of a choice that carries nothing: the bare name, or its record with `null`. -/
def bareChoice? (j : Json) : Option String :=
  match choice? j with
  | some (name, none) => some name
  | some (name, some .null) => some name
  | _ => none

def choose (name : String) (j : Json) : Json := .record [(name, j)]

/-- A defaulted field. -/
def getD? (read? : Json → Option α) (default : α) : Option Json → Option α
  | none => some default
  | some j => read? j

end Misuse.Json
