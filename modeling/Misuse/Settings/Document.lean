import Misuse.Settings.Basic
import Misuse.Yaml.Printer
import Misuse.Yaml.Reader

/-!
# Settings documents

A document names its version and a preset, and may replace whole stages. A replaced stage
takes its own defaults, and not those of the preset, for the fields it leaves out. Written
settings spell out every stage.
-/

namespace Misuse

/-- What a document says, before it is checked. -/
structure SettingsDocument where
  version : Option Nat
  preset : String
  overrides : Option Overrides
  deriving DecidableEq, Repr, Inhabited

/-- The greatest version number that can be read. -/
def SettingsDocument.greatestVersion : Nat := 4294967295

/-! ## Stages -/

namespace TypestateSettings

def fieldNames : List String := ["fuzzy_matching", "report_incomplete", "strict_labels"]

def toYaml (s : TypestateSettings) : Yaml :=
  .named [("fuzzy_matching", .flag s.fuzzyMatching),
    ("report_incomplete", .flag s.reportIncomplete), ("strict_labels", .flag s.strictLabels)]

def ofYaml? (as : Yaml.Anchors) (y : Yaml) : Option TypestateSettings := do
  match ← Yaml.fields? .ignored fieldNames as y with
  | [fuzzy, incomplete, strict] =>
    some ⟨← Yaml.getD? Yaml.flag? default.fuzzyMatching as fuzzy,
      ← Yaml.getD? Yaml.flag? default.reportIncomplete as incomplete,
      ← Yaml.getD? Yaml.flag? default.strictLabels as strict⟩
  | _ => none

end TypestateSettings

namespace Policy

def fieldNames : List String := ["keying_variables", "skipped_anchors"]

def toYaml (p : Policy) : Yaml :=
  .named [("keying_variables", .list (p.keying.map Yaml.ofText)),
    ("skipped_anchors", .list (p.unanchored.map Yaml.ofText))]

def ofYaml? (as : Yaml.Anchors) (y : Yaml) : Option Policy := do
  match ← Yaml.fields? .ignored fieldNames as y with
  | [keying, unanchored] =>
    let names? := fun as y => (Yaml.list? Yaml.text? as y).map Sorted.ofList
    some ⟨← Yaml.getD? names? default.keying as keying,
      ← Yaml.getD? names? default.unanchored as unanchored⟩
  | _ => none

end Policy

namespace ConstraintSettings

def fieldNames : List String := ["policy", "max_value_combinations"]

def toYaml (s : ConstraintSettings) : Yaml :=
  .named [("policy", s.policy.toYaml), ("max_value_combinations", .size s.maxCombinations)]

def ofYaml? (as : Yaml.Anchors) (y : Yaml) : Option ConstraintSettings := do
  match ← Yaml.fields? .ignored fieldNames as y with
  | [policy, combinations] =>
    some ⟨← Yaml.getD? Policy.ofYaml? default.policy as policy,
      ← Yaml.getD? (Yaml.size? Integer.greatestSize) default.maxCombinations as combinations⟩
  | _ => none

end ConstraintSettings

namespace WorkerSettings

def fieldNames : List String := ["num_threads", "parallel_threshold"]

def toYaml (s : WorkerSettings) : Yaml :=
  .named [("num_threads", .size s.workers), ("parallel_threshold", .size s.threshold)]

def ofYaml? (as : Yaml.Anchors) (y : Yaml) : Option WorkerSettings := do
  match ← Yaml.fields? .ignored fieldNames as y with
  | [workers, threshold] =>
    some ⟨← Yaml.getD? (Yaml.size? Integer.greatestSize) default.workers as workers,
      ← Yaml.getD? (Yaml.size? Integer.greatestSize) default.threshold as threshold⟩
  | _ => none

end WorkerSettings

/-! ## Documents -/

namespace Overrides

def fieldNames : List String := ["typestate", "constraints", "parallel"]

def none : Overrides := ⟨.none, .none, .none⟩

/-- Only stages that are replaced are written. -/
def toYaml (o : Overrides) : Yaml :=
  .named ((o.typestate.map fun s => ("typestate", s.toYaml)).toList
    ++ (o.constraints.map fun s => ("constraints", s.toYaml)).toList
    ++ (o.workers.map fun s => ("parallel", s.toYaml)).toList)

def ofYaml? (as : Yaml.Anchors) (y : Yaml) : Option Overrides := do
  match ← Yaml.fields? .refused fieldNames as y with
  | [typestate, constraints, workers] =>
    some ⟨← Yaml.getD? (Yaml.option? TypestateSettings.ofYaml?) .none as typestate,
      ← Yaml.getD? (Yaml.option? ConstraintSettings.ofYaml?) .none as constraints,
      ← Yaml.getD? (Yaml.option? WorkerSettings.ofYaml?) .none as workers⟩
  | _ => .none

end Overrides

namespace SettingsDocument

def fieldNames : List String := ["version", "preset", "overrides"]

def toYaml (d : SettingsDocument) : Yaml :=
  .named ([("version", (d.version.map Yaml.size).getD (.plain "null")),
      ("preset", .ofText d.preset)]
    ++ (d.overrides.map fun o => ("overrides", o.toYaml)).toList)

def ofYaml? (as : Yaml.Anchors) (y : Yaml) : Option SettingsDocument := do
  match ← Yaml.fields? .refused fieldNames as y with
  | [version, preset, overrides] =>
    some ⟨← Yaml.getD? (Yaml.option? (Yaml.size? greatestVersion)) none as version,
      ← Yaml.text? as (← preset),
      ← Yaml.getD? (Yaml.option? Overrides.ofYaml?) none as overrides⟩
  | _ => none

/-- The settings a document describes: its version, its preset and then its stages are
checked. -/
def settings (d : SettingsDocument) : Except SettingsFault Settings :=
  match d.version with
  | none => .error .missingVersion
  | some v =>
    if v ≠ SettingsFault.supportedVersion then .error (.unsupportedVersion v)
    else
      match Preset.ofName? d.preset with
      | none => .error (.unknown Preset.names d.preset)
      | some p =>
        let s := p.settings.overriddenBy (d.overrides.getD .none)
        match s.fault? with
        | some f => .error f
        | none => .ok s

end SettingsDocument

namespace Settings

/-- A document that spells out every stage. -/
def toDocument (s : Settings) : SettingsDocument :=
  ⟨some SettingsFault.supportedVersion, s.preset.name,
    some ⟨some s.typestate, some s.constraints, some s.workers⟩⟩

def toYaml (s : Settings) : Yaml := s.toDocument.toYaml

def ofYaml (d : Yaml.Document) : Except SettingsFault Settings :=
  match SettingsDocument.ofYaml? d.anchors d.root with
  | none => .error .shape
  | some d => d.settings

def write (s : Settings) : String := Yaml.write s.toYaml

def read (text : String) : Except SettingsFault Settings :=
  match Yaml.read? text with
  | none => .error .shape
  | some d => ofYaml d

end Settings

end Misuse
