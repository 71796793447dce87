import Misuse.Judgement
import Misuse.Settings.Fault
import Misuse.Settings.Preset
import Misuse.Typestate

/-!
# Settings

One record per stage: how calls are matched, how constraints are judged, how many workers
there are. A preset fills all of them; a whole stage may then be replaced.
`Settings.fault?` finds what is wrong, stage by stage and then across stages.
-/

namespace Misuse

/-- How the objects of a pass are spread. A guard sees what other objects have published by then, so
with several workers at once an answer may depend on which of them is ahead. A pass is modelled as
one worker takes it, in tracking order. -/
structure WorkerSettings where
  /-- 0 for as many as there are cores. -/
  workers : Nat
  /-- With fewer objects than this, one worker does it all. -/
  threshold : Nat
  deriving DecidableEq, Repr, Inhabited

namespace WorkerSettings

def default : WorkerSettings := ⟨0, 8⟩

/-- One worker, however many objects there are. -/
def sequential : WorkerSettings := ⟨1, Integer.greatestSize⟩

def fault? (s : WorkerSettings) : Option SettingsFault :=
  if s.workers ≤ SettingsFault.greatestWorkers then none else some (.workers s.workers)

end WorkerSettings

namespace ConstraintSettings

def fault? (s : ConstraintSettings) : Option SettingsFault :=
  if SettingsFault.leastCombinations ≤ s.maxCombinations
      ∧ s.maxCombinations ≤ SettingsFault.greatestCombinations then
    (s.policy.keying.find? Text.isBlankText).map .blankKeying
  else some (.combinations s.maxCombinations)

end ConstraintSettings

structure Settings where
  preset : Preset
  typestate : TypestateSettings
  constraints : ConstraintSettings
  workers : WorkerSettings
  deriving DecidableEq, Repr, Inhabited

namespace Preset

def typestate : Preset → TypestateSettings
  | .fast => { TypestateSettings.default with reportIncomplete := false }
  | .thorough => { TypestateSettings.default with strictLabels := true }
  | .balanced | .custom => .default

def maxCombinations : Preset → Nat
  | .fast => 64
  | .thorough => 4096
  | .balanced | .custom => 256

def constraints (p : Preset) : ConstraintSettings :=
  { ConstraintSettings.default with maxCombinations := p.maxCombinations }

def workers : Preset → WorkerSettings
  | .fast => { WorkerSettings.default with threshold := 32 }
  | .balanced | .thorough | .custom => .default

def settings (p : Preset) : Settings := ⟨p, p.typestate, p.constraints, p.workers⟩

end Preset

/-- Stages that replace those of a preset. -/
structure Overrides where
  typestate : Option TypestateSettings
  constraints : Option ConstraintSettings
  workers : Option WorkerSettings
  deriving DecidableEq, Repr, Inhabited

namespace Settings

def overriddenBy (s : Settings) (o : Overrides) : Settings :=
  { s with
    typestate := o.typestate.getD s.typestate
    constraints := o.constraints.getD s.constraints
    workers := o.workers.getD s.workers }

/-- The first fault, if any. -/
def fault? (s : Settings) : Option SettingsFault :=
  (s.constraints.fault? <|> s.workers.fault?) <|>
    (Sorted.common? s.constraints.policy.keying s.constraints.policy.unanchored).map
      .keyingUnanchored

end Settings

end Misuse
