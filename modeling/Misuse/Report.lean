import Misuse.Violation

/-!
# Reports

The records of an analysis, each key once, in the order they were found. A report is
determined by its records, so one that is written and read back goes on as before.
-/

namespace Misuse

structure Report where
  records : List Violation
  deriving DecidableEq, Repr, Inhabited

namespace Report

def empty : Report := ⟨[]⟩

/-- A record of this key is present. -/
def has (r : Report) (v : Violation) : Bool := r.records.any fun w => w.key == v.key

/-- Add a record unless its key is present. -/
def record (r : Report) (v : Violation) : Report := if r.has v then r else ⟨r.records ++ [v]⟩

def extend (r : Report) (vs : List Violation) : Report := vs.foldl record r

def merge (r s : Report) : Report := r.extend s.records

def size (r : Report) : Nat := r.records.length

/-! ## Queries -/

def ofKind (r : Report) (k : Violation.Kind) : List Violation :=
  r.records.filter fun v => v.kind == k

def forObject (r : Report) (object : String) : List Violation :=
  r.records.filter fun v => v.object == some object

def misuses (r : Report) : List Violation := r.records.filter fun v => v.kind.isMisuse

/-- The kinds that occur, each with its records. -/
def byKind (r : Report) : List (Violation.Kind × List Violation) :=
  (Violation.Kind.all.map fun k => (k, r.ofKind k)).filter fun p => !p.2.isEmpty

/-- By kind, rule, object, first site and subject; what is absent comes first. -/
def compareRecords (v w : Violation) : Ordering :=
  (compare v.kind w.kind).then <|
    (compare v.rule w.rule).then <|
      (compare v.object w.object).then <|
        (compare v.sites.head? w.sites.head?).then <|
          compare v.subject w.subject

/-- The records in order; records that compare equal keep their places. -/
def sorted (r : Report) : List Violation :=
  r.records.mergeSort fun v w => (compareRecords v w).isLE

end Report

end Misuse
