import Misuse.Report.Document

/-!
# Reports with the keys of their records

Records are told apart by their keys, and a report keeps the keys of its records at hand. They are
not written: a report that is read has none, and enters those of its records when the next record
comes.
-/

namespace Misuse.Report

structure Indexed extends Report where
  /-- The keys of the records, or none before the first record comes. -/
  keys : List Violation.Key
  deriving DecidableEq, Repr

namespace Indexed

def empty : Indexed := ⟨.empty, []⟩

/-- Enter the keys of the records if there are none. -/
def enterKeys (r : Indexed) : Indexed :=
  if r.keys.isEmpty && !r.records.isEmpty then { r with keys := r.records.map Violation.key }
  else r

/-- Add a record unless its key is present. The answer is whether it is added. -/
def record (r : Indexed) (v : Violation) : Indexed × Bool :=
  let r := r.enterKeys
  if r.keys.contains v.key then (r, false)
  else ({ r with records := r.records ++ [v], keys := v.key :: r.keys }, true)

/-- Add records one by one. The answer is how many are added. -/
def extend (r : Indexed) : List Violation → Indexed × Nat
  | [] => (r, 0)
  | v :: vs =>
    let (r, added) := r.record v
    let (r, count) := r.extend vs
    (r, if added then count + 1 else count)

/-- Add the records of another report. -/
def merge (r s : Indexed) : Indexed × Nat := r.extend s.records

/-- The report that a text spells, without keys. -/
def read? (text : String) : Option Indexed := (Report.read? text).map fun r => ⟨r, []⟩

end Indexed

end Misuse.Report
