import Misuse.Proofs.Endings
import Misuse.Proofs.Overlaps
import Misuse.Proofs.Sites

/-!
# Rejected rules in the report

The defects of a rulebook are recorded when a session starts, and every later report of the
session has these records and no others of their kind. They are told apart by the names of the
rules only, so of several defects of one name the first is reported
(`Report.ofKind_defects`). Each defect is reported with its message exactly if the defects of
one name agree in theirs (`malformed_of_run`).
-/

namespace Misuse

namespace Violation

/-- The message of a defect does not belong to the key of its record. -/
theorem key_malformedRule_eq_iff (d e : Defect) :
    (malformedRule d).key = (malformedRule e).key ↔ d.ruleName = e.ruleName := by
  simp [key, malformedRule]

theorem Finding.kind_ne_malformedRule {v : Violation} (h : v.Finding) :
    v.kind ≠ .malformedRule := by
  cases h <;> nofun

end Violation

namespace Report

/-- A record has the rule name of a defect and its message. -/
def Notes (r : Report) (d : Defect) : Prop :=
  ∃ v ∈ r.ofKind .malformedRule, v.rule = d.ruleName ∧ v.message = d.message

instance (r : Report) (d : Defect) : Decidable (r.Notes d) :=
  inferInstanceAs (Decidable (∃ v ∈ r.ofKind .malformedRule, _ ∧ _))

/-- Of the defects with one rule name the first is recorded. -/
theorem ofKind_defects (defects : List Defect) :
    (empty.extend (defects.map .malformedRule)).ofKind .malformedRule =
      (distinctBy Defect.ruleName defects).map .malformedRule := by
  have all : ∀ v ∈ (distinctBy Defect.ruleName defects).map Violation.malformedRule,
      (v.kind == .malformedRule) = true := by
    intro v hv
    obtain ⟨d, -, rfl⟩ := List.mem_map.mp hv
    rfl
  rw [ofKind, records_extend_empty, distinctBy_map,
    distinctBy_congr Violation.key_malformedRule_eq_iff, List.filter_eq_self.mpr all]

section

variable {r : Report} {defects : List Defect}
  (h : r.ofKind .malformedRule = (distinctBy Defect.ruleName defects).map .malformedRule)

include h

theorem exists_malformedRule_of_mem {d : Defect} (hd : d ∈ defects) :
    ∃ v ∈ r.ofKind .malformedRule, v.rule = d.ruleName := by
  have named : d.ruleName ∈ (distinctBy Defect.ruleName defects).map Defect.ruleName :=
    (mem_map_distinctBy Defect.ruleName d.ruleName defects).mpr (List.mem_map_of_mem hd)
  obtain ⟨e, he, same⟩ := List.mem_map.mp named
  rw [h]
  exact ⟨.malformedRule e, List.mem_map_of_mem he, same⟩

theorem forall_notes_iff :
    (∀ d ∈ defects, r.Notes d) ↔
      ∀ d ∈ defects, ∀ e ∈ defects, d.ruleName = e.ruleName → d.message = e.message := by
  have first (d : Defect) : r.Notes d ↔ ∃ e ∈ distinctBy Defect.ruleName defects,
      e.ruleName = d.ruleName ∧ e.message = d.message := by
    simp only [Notes, h, List.mem_map, exists_exists_and_eq_and]
    rfl
  simp only [first]
  exact forall_exists_mem_distinctBy_iff Defect.ruleName Defect.message defects

end

end Report

namespace Session

/-! ## The invariant -/

/-- The defects of the rulebook are recorded, and nothing else is taken for a defect. -/
structure Rejections (s : Session) : Prop where
  permanent : s.permanent.ofKind .malformedRule =
    (distinctBy Defect.ruleName s.rules.rejected).map .malformedRule
  findings : ∀ v ∈ s.findings.records, v.kind ≠ .malformedRule

variable {settings : Settings} {rules : Rulebook} {subtyping : Subtyping} {s : Session}

/-- Strict settings add the defects of the rules that were accepted before. -/
theorem rejected_rulesFor (settings : Settings) (rules : Rulebook) :
    (rulesFor settings rules).rejected = rules.rejected ++
      if settings.typestate.strictLabels then rules.rules.filterMap (Rulebook.defect? true)
      else [] := by
  unfold rulesFor
  split
  · rfl
  · rw [List.append_nil]

theorem rejections_start (h : start settings rules subtyping = .ok s) : s.Rejections := by
  rw [eq_of_start h]
  exact ⟨Report.ofKind_defects _, by simp⟩

/-- A pass records calls, and finds constraints. -/
theorem Rejections.pass (h : s.Rejections) : s.pass.1.Rejections := by
  refine ⟨?_, fun v hv => ?_⟩
  · rw [permanent_pass, rules_pass, Report.ofKind_extend_of_ne, h.permanent]
    intro v hv
    obtain ⟨o, -, hv⟩ := List.mem_flatMap.mp hv
    obtain hk | hk := (Tracked.typestate_of_mem_violations hv).2
    · simp [hk]
    · simp [hk]
  · rw [findings_pass, Report.records_extend_empty] at hv
    obtain ⟨o, -, hv⟩ := List.mem_flatMap.mp ((distinctBy_sublist _ _).subset hv)
    exact (Rule.finding_of_mem_judge hv).kind_ne_malformedRule

theorem Rejections.perform (h : s.Rejections) (op : Op) : (s.perform op).Rejections := by
  by_cases hop : op = .pass
  · subst hop
    exact h.pass
  · obtain ⟨objects, registry, inbox, he⟩ := s.exists_perform_eq hop
    rw [he]
    exact ⟨h.permanent, h.findings⟩

theorem Rejections.run (h : s.Rejections) (ops : List Op) : (s.run ops).Rejections := by
  induction ops generalizing s with
  | nil => exact h
  | cons op ops ih => exact ih (h.perform op)

/-! ## Reports -/

theorem Rejections.ofKind_report (h : s.Rejections) :
    s.report.ofKind .malformedRule =
      (distinctBy Defect.ruleName s.rules.rejected).map .malformedRule := by
  rw [report, Report.merge, Report.ofKind_extend_of_ne _ h.findings, h.permanent]

theorem Rejections.ofKind_finish (h : s.Rejections) :
    s.finish.ofKind .malformedRule =
      (distinctBy Defect.ruleName s.rules.rejected).map .malformedRule := by
  rw [finish, Report.ofKind_extend_of_ne, h.pass.ofKind_report, rules_pass]
  intro v hv
  obtain ⟨o, -, hv⟩ := List.mem_flatMap.mp hv
  obtain ⟨_, _, rfl⟩ | ⟨_, _, rfl⟩ := exists_of_mem_ending hv
  · show Violation.Kind.incompleteOperation ≠ .malformedRule
    decide
  · show Violation.Kind.impreciseValue ≠ .malformedRule
    decide

/-- **What a report tells of rejected rules.** The defects of a session are those of its rulebook,
followed by those that strict settings find in the accepted rules. At any time, and at the end,
the report has of the defects with one rule name the first, and no other record of this kind. So
every rejected rule is named, and every defect is reported with its message exactly if defects
with one rule name have one message. -/
theorem malformed_of_run (h : start settings rules subtyping = .ok s) (ops : List Op) :
    let t := s.run ops
    let defects := t.rules.rejected
    (defects = rules.rejected ++
      if settings.typestate.strictLabels then rules.rules.filterMap (Rulebook.defect? true)
      else []) ∧
    ∀ r ∈ [t.report, t.finish],
      r.ofKind .malformedRule = (distinctBy Defect.ruleName defects).map .malformedRule ∧
      (∀ d ∈ defects, ∃ v ∈ r.ofKind .malformedRule, v.rule = d.ruleName) ∧
      ((∀ d ∈ defects, r.Notes d) ↔
        ∀ d ∈ defects, ∀ e ∈ defects, d.ruleName = e.ruleName → d.message = e.message) := by
  intro t defects
  have rejections : t.Rejections := (rejections_start h).run ops
  have kept : defects = (rulesFor settings rules).rejected := by
    show (s.run ops).rules.rejected = _
    rw [rules_run, eq_of_start h]
  refine ⟨kept.trans (rejected_rulesFor settings rules), fun r hr => ?_⟩
  have recorded : r.ofKind .malformedRule =
      (distinctBy Defect.ruleName defects).map .malformedRule := by
    simp only [List.mem_cons, List.not_mem_nil, or_false] at hr
    rcases hr with last | last
    · rw [last]
      exact rejections.ofKind_report
    · rw [last]
      exact rejections.ofKind_finish
  exact ⟨recorded, fun d hd => Report.exists_malformedRule_of_mem recorded hd,
    Report.forall_notes_iff recorded⟩

/-! ## Ciphers that are rejected -/

/-- A key without a state, and a cipher that leads one method to two states. -/
def keyAndFork : List Rule :=
  [Rule.empty "Key", Rule.forkedCipher Rule.initKey Rule.initKey]

theorem malformed_of_run_fork :
    let book := keyAndFork.foldl (fun b r => b.insert false r) .empty
    let s := startedWith strictSettings keyAndFork
    let t := s.run [.track "c" "c@1" "Cipher", .pass]
    start strictSettings book exactTypes = .ok s ∧
      book.rejected = [.noInitialState "Key"] ∧
      t.rules.rejected = [.noInitialState "Key", .overlappingLabels "Cipher" "new" "init"] ∧
      ∀ d ∈ t.rules.rejected, t.report.Notes d ∧ t.finish.Notes d := by
  intro book s t
  have started : start strictSettings book exactTypes = .ok s := rfl
  have told := malformed_of_run started [.track "c" "c@1" "Cipher", .pass]
  have apart : ∀ d ∈ t.rules.rejected, ∀ e ∈ t.rules.rejected,
      d.ruleName = e.ruleName → d.message = e.message := by decide
  have report := (told.2 t.report (by simp [t])).2.2.mpr apart
  have finish := (told.2 t.finish (by simp [t])).2.2.mpr apart
  exact ⟨started, by decide, by decide, fun d hd => ⟨report d hd, finish d hd⟩⟩

/-- Two ciphers, one without an initial state and one that starts in a state it does not have. -/
def brokenCiphers : List Rule :=
  [Rule.empty "Cipher",
   { Rule.empty "Cipher" with automaton := { Automaton.empty with initial := ["new"] } }]

/-- The second of two rejected rules for one type is not reported. -/
theorem unnoted_of_ciphers :
    let book := brokenCiphers.foldl (fun b r => b.insert false r) .empty
    let s := startedWith Preset.balanced.settings brokenCiphers
    start Preset.balanced.settings book exactTypes = .ok s ∧
      s.rules.rejected = [.noInitialState "Cipher", .unknownState "Cipher" "new"] ∧
      ¬ s.report.Notes (.unknownState "Cipher" "new") ∧
      ¬ s.finish.Notes (.unknownState "Cipher" "new") := by
  intro book s
  exact ⟨rfl, by decide, by decide, by decide⟩

end Session

end Misuse
