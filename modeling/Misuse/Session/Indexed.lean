import Misuse.Positions
import Misuse.Session.Pass

/-!
# Sessions with positions

An object is found by its position, which is entered when it is tracked. Objects are added at the
end and never moved, so nothing else is ever entered.
-/

namespace Misuse.Session

structure Indexed extends Session where
  positions : Positions

namespace Indexed

def start (settings : Settings) (rules : Rulebook) (subtyping : Subtyping) :
    Except SessionFault Indexed :=
  (Session.start settings rules subtyping).map fun s => ⟨s, []⟩

/-! ## Objects -/

def object? (s : Indexed) (id : String) : Option Tracked :=
  (s.positions.get? id).bind fun i => s.objects[i]?

def tracks (s : Indexed) (id : String) : Bool := (s.positions.get? id).isSome

/-- Change the object that is found. There is none if the answer is none. -/
def change? (s : Indexed) (id : String) (f : Tracked → Tracked) : Option (Indexed × Tracked) :=
  (s.positions.get? id).bind fun i =>
    (s.objects[i]?).map fun o => ({ s with objects := s.objects.set i (f o) }, o)

/-- Track an object under the rule of its type. -/
def track (s : Indexed) (id self className : String) : Except SessionFault Indexed :=
  match s.rules.get? className with
  | none => .error (.unknownRule className)
  | some rule =>
    if s.tracks id then .error (.duplicateObject id)
    else
      .ok { s with
        objects := s.objects ++ [.start id self rule]
        positions := s.positions.enter id s.objects.length }

/-- Queue a call. -/
def observe (s : Indexed) (id : String) (call : Call) : Except SessionFault Indexed :=
  match s.change? id fun o => o.observe call with
  | none => .error (.unknownObject id)
  | some (s, _) => .ok s

/-- Bind a variable of an object at once; says whether the place was free. -/
def bind (s : Indexed) (id : String) (b : Binding) : Except SessionFault (Indexed × Bool) :=
  match s.change? id fun o => o.bind b with
  | none => .error (.unknownObject id)
  | some (s, o) => .ok (s, !o.hasPlace b)

/-! ## Answers -/

/-- Answer a query, asked or not; says how many listeners it reached. -/
def supply (s : Indexed) (q : Query) (values : List Value) : Indexed × Nat :=
  let (t, count) := s.toSession.supply q values
  ({ s with toSession := t }, count)

/-- Answer every query that waits, in order. -/
def resolveAll (s : Indexed) (answer? : Query → Option (List Value)) : Indexed :=
  { s with toSession := s.toSession.resolveAll answer? }

/-! ## Passes -/

/-- Hand a binding to its object; counts it if its place was free. -/
def deliver : Indexed × Nat → Delivery String → Indexed × Nat
  | (s, n), d =>
    match s.bind d.target d.binding with
    | .ok (s, added) => (s, if added then n + 1 else n)
    | .error _ => (s, n)

/-- Empty the inbox; counts the bindings that were added. -/
def drain (s : Indexed) : Indexed × Nat := s.inbox.foldl deliver ({ s with inbox := [] }, 0)

/-- A pass finds the objects of bindings by their positions, which it leaves as they are. -/
def pass (s : Indexed) : Indexed × PassSummary :=
  let (t, summary) := s.toSession.passBy fun t =>
    let (u, n) := drain ⟨t, s.positions⟩
    (u.toSession, n)
  ({ s with toSession := t }, summary)

/-- One last pass, then the end of every object. -/
def finish (s : Indexed) : Report :=
  let s := s.pass.1
  s.report.extend (s.objects.flatMap s.ending)

end Indexed

end Misuse.Session
