import Misuse.Json.Printer
import Misuse.Json.Reader
import Misuse.Json.Shape
import Misuse.Report

/-!
# Reports as documents

A report is written as a record of its records.
-/

namespace Misuse

namespace Violation

def toJson (v : Violation) : Json :=
  .record
    [("kind", .text v.kind.name), ("rule", .text v.rule), ("object", .ofOption .text v.object),
     ("sites", .texts v.sites), ("subject", .ofOption .text v.subject),
     ("expected", .texts v.expected), ("message", .text v.message)]

def shape : Json.Shape :=
  [("kind", .required), ("rule", .required), ("object", .nullable), ("sites", .required),
   ("subject", .nullable), ("expected", .required), ("message", .required)]

def ofJson? (j : Json) : Option Violation :=
  match j.fields? shape with
  | some [some kind, some rule, some object, some sites, some subject, some expected,
      some message] => do
    let kind ← (Json.bareChoice? kind).bind Kind.ofName?
    let rule ← rule.text?
    let object ← object.option? Json.text?
    let sites ← sites.list? Json.text?
    let subject ← subject.option? Json.text?
    let expected ← expected.list? Json.text?
    let message ← message.text?
    some { kind, rule, object, sites, subject, expected, message }
  | _ => none

end Violation

namespace Report

def toJson (r : Report) : Json := .record [("records", .ofList Violation.toJson r.records)]

def ofJson? (j : Json) : Option Report :=
  match j.fields? [("records", .required)] with
  | some [some records] => (records.list? Violation.ofJson?).map Report.mk
  | _ => none

def write (r : Report) : String := r.toJson.pretty

def read? (s : String) : Option Report := (Json.parse? Json.documentRoom s).bind ofJson?

end Report

end Misuse
