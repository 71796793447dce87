import Misuse.Registry
import Misuse.Report
import Misuse.Rulebook
import Misuse.Settings.Basic
import Misuse.Tracked

/-!
# Sessions

A session tracks objects under the rules of a rulebook. Between passes, calls are queued
with their objects, and answers to queries are delivered to an inbox. Operations on
objects that are not tracked fail and change nothing.
-/

namespace Misuse

inductive SessionFault where
  | settings (fault : SettingsFault)
  | unknownRule (className : String)
  | unknownObject (id : String)
  | duplicateObject (id : String)
  deriving DecidableEq, Repr, Inhabited

namespace SessionFault

def message : SessionFault → String
  | .settings fault => "Configuration error: " ++ fault.message
  | .unknownRule className => "No rule for type '" ++ className ++ "'"
  | .unknownObject id => "Unknown tracked object '" ++ id ++ "'"
  | .duplicateObject id => "Object '" ++ id ++ "' is already tracked"

end SessionFault

structure Session where
  settings : Settings
  rules : Rulebook
  subtyping : Subtyping
  /-- Queries, with the objects that wait for their answers. -/
  registry : Registry String
  /-- Bindings that have not reached their objects yet. -/
  inbox : List (Delivery String)
  /-- In the order in which they were tracked. -/
  objects : List Tracked
  store : FactStore
  /-- Malformed rules, misplaced calls and banned calls. -/
  permanent : Report
  /-- What the last pass found of constraints. -/
  findings : Report
  passes : Nat

namespace Session

/-- The rulebook a session uses: strict settings check it once more. -/
def rulesFor (settings : Settings) (rules : Rulebook) : Rulebook :=
  if settings.typestate.strictLabels then rules.revalidate true else rules

/-- A session without objects, if the settings have no fault. Every defect is recorded. -/
def start (settings : Settings) (rules : Rulebook) (subtyping : Subtyping) :
    Except SessionFault Session :=
  match settings.fault? with
  | some fault => .error (.settings fault)
  | none =>
    let rules := rulesFor settings rules
    .ok
      { settings, rules, subtyping
        registry := .empty, inbox := [], objects := [], store := .empty
        permanent := Report.empty.extend (rules.rejected.map .malformedRule)
        findings := .empty, passes := 0 }

def matcher (s : Session) : Matcher := ⟨s.subtyping, s.settings.typestate.fuzzyMatching⟩

/-- Every record so far. -/
def report (s : Session) : Report := s.permanent.merge s.findings

/-! ## Objects -/

def object? (s : Session) (id : String) : Option Tracked := s.objects.find? fun o => o.id == id

def tracks (s : Session) (id : String) : Bool := (s.object? id).isSome

def update (s : Session) (id : String) (f : Tracked → Tracked) : Session :=
  { s with objects := s.objects.map fun o => if o.id == id then f o else o }

/-- Track an object under the rule of its type. -/
def track (s : Session) (id self className : String) : Except SessionFault Session :=
  match s.rules.get? className with
  | none => .error (.unknownRule className)
  | some rule =>
    if s.tracks id then .error (.duplicateObject id)
    else .ok { s with objects := s.objects ++ [.start id self rule] }

/-- Queue a call. -/
def observe (s : Session) (id : String) (call : Call) : Except SessionFault Session :=
  if s.tracks id then .ok (s.update id fun o => o.observe call)
  else .error (.unknownObject id)

/-- Bind a variable of an object at once; says whether the place was free. -/
def bind (s : Session) (id : String) (b : Binding) : Except SessionFault (Session × Bool) :=
  match s.object? id with
  | none => .error (.unknownObject id)
  | some o => .ok (s.update id fun o => o.bind b, !o.hasPlace b)

/-! ## Answers -/

/-- Answer a query, asked or not; says how many listeners it reached. -/
def supply (s : Session) (q : Query) (values : List Value) : Session × Nat :=
  let (registry, deliveries, count) := s.registry.resolve q values
  ({ s with registry, inbox := s.inbox ++ deliveries }, count)

/-- Answer every query that waits, in order. One that cannot be answered gets a single
value about which nothing is known. -/
def resolveAll (s : Session) (answer? : Query → Option (List Value)) : Session :=
  s.registry.pending.foldl
    (fun s q => (s.supply q ((answer? q).getD [.unresolved])).1) s

/-- The variables of an object that queries wait for. -/
def waitingVars (s : Session) (id : String) : List String :=
  (s.registry.pending.filter fun q => q.object == id).map Query.var

end Session

end Misuse
