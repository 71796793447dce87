import Misuse.Proofs.Chronicle
import Misuse.Proofs.Endings

/-!
# Failures in the report

What becomes of the constraints a pass finds violated or missing. A record is told from
others by what it displays of its constraint, and by its sites; the report has the failures
of an object, each key once, and nothing else of their kinds (`failures_of_run`). So none is
lost while no two of them have the same key, which is so if the constraints of the rule
display differently. Two methods of one name display alike, and their failures become one
record (`failures_of_overloads`).
-/

namespace Misuse

namespace Violation

/-- A record of a constraint that is violated, or of a predicate that is missing. -/
def isFailure (v : Violation) : Bool := v.kind == .constraint || v.kind == .missingPredicate

def isFailureOf (object : String) (v : Violation) : Bool :=
  v.isFailure && v.object == some object

theorem isFailure_of_key {v w : Violation} (h : v.key = w.key) : v.isFailure = w.isFailure := by
  have : v.kind = w.kind := congrArg Key.kind h
  simp [isFailure, this]

theorem isFailureOf_of_key (object : String) {v w : Violation} (h : v.key = w.key) :
    v.isFailureOf object = w.isFailureOf object := by
  simp [isFailureOf, isFailure_of_key h, object_of_key h]

end Violation

/-- Dropping repeats keeps all items just if no two have the same key. -/
theorem length_distinctBy_eq_iff {α β : Type} [DecidableEq β] (key : α → β) (s : List α) :
    (distinctBy key s).length = s.length ↔ (s.map key).Nodup := by
  constructor
  · intro h
    have same := (distinctBy_sublist key s).eq_of_length h
    exact same ▸ nodup_distinctBy key s
  · exact fun h => congrArg List.length (distinctBy_eq_self h)

/-! ## Failures of one object -/

namespace Rule

variable {r : Rule} {policy : Policy} {ctx : Context}

theorem directRecord?_eq_some {c : Constraint} {v : Violation}
    (h : r.directRecord? ctx c = some v) :
    v.subject = some c.display ∧ (v.kind = .constraint ∨ v.kind = .impreciseValue) := by
  simp only [directRecord?] at h
  split at h <;> cases h
  · exact ⟨rfl, .inl rfl⟩
  · exact ⟨rfl, .inr rfl⟩

theorem requiredRecord?_eq_some {q : Required} {v : Violation}
    (h : r.requiredRecord? ctx q = some v) :
    v.subject = some q.requirement.display ∧
      (v.kind = .missingPredicate ∨ v.kind = .impreciseValue) := by
  unfold requiredRecord? at h
  split at h <;> cases h
  · exact ⟨rfl, .inl rfl⟩
  · exact ⟨rfl, .inr rfl⟩

/-- Of what is judged, the failures are what counts as misuse. -/
theorem misuses_judge : (r.judge policy ctx).misuses =
    ((r.judge policy ctx).violations.filter Violation.isFailure).length := by
  refine congrArg List.length (List.filter_congr fun v hv => ?_)
  rcases List.mem_append.mp hv with hv | hv
  · obtain ⟨i, -, hi⟩ := List.mem_filterMap.mp hv
    obtain ⟨c, -, hc⟩ := Option.bind_eq_some_iff.mp hi
    rcases (directRecord?_eq_some hc).2 with hk | hk <;>
      simp [Violation.isFailure, Violation.Kind.isMisuse, hk]
  · obtain ⟨q, -, hq⟩ := List.mem_filterMap.mp hv
    rcases (requiredRecord?_eq_some hq).2 with hk | hk <;>
      simp [Violation.isFailure, Violation.Kind.isMisuse, hk]

/-! ## Constraints that display differently -/

theorem exists_of_mem_direct {view : View} {indices : List Nat} {i : Nat}
    (h : i ∈ (policy.partition r view indices).direct) :
    ∃ c, r.constraints[i]? = some c ∧ c.subject = c.display := by
  obtain ⟨-, c, hc, -, -, form⟩ := Policy.mem_direct_iff.mp h
  exact ⟨c, hc, by simp [Constraint.subject, form]⟩

theorem exists_of_mem_required {view : View} {indices : List Nat} {q : Required}
    (h : q ∈ (policy.partition r view indices).required) :
    ∃ c, r.constraints[q.index]? = some c ∧ c.subject = q.requirement.display := by
  obtain ⟨c, hc, form⟩ := Policy.exists_of_mem_required h
  exact ⟨c, hc, by simp [Constraint.subject, form]⟩

theorem index_eq_of_subject {i j : Nat} {c d : Constraint}
    (h : (r.constraints.map Constraint.subject).Nodup) (hi : r.constraints[i]? = some c)
    (hj : r.constraints[j]? = some d) (hs : c.subject = d.subject) : i = j := by
  have hlt : i < (r.constraints.map Constraint.subject).length := by
    rw [List.length_map]
    exact (List.getElem?_eq_some_iff.mp hi).1
  refine (List.getElem?_inj hlt h).mp ?_
  rw [List.getElem?_map, List.getElem?_map, hi, hj, Option.map_some, Option.map_some, hs]

theorem pairwise_directRecords (h : (r.constraints.map Constraint.subject).Nodup) :
    (r.directRecords ctx (policy.partition r ctx.view r.constraintIndices).direct).Pairwise
      fun v w => v.subject ≠ w.subject := by
  have indices : (policy.partition r ctx.view r.constraintIndices).direct.Nodup :=
    List.nodup_range.sublist (policy.direct_sublist r ctx.view r.constraintIndices)
  refine List.pairwise_filterMap.mpr (indices.imp_of_mem fun hi hj hne v hv w hw hs => hne ?_)
  obtain ⟨c, hc, hcs⟩ := exists_of_mem_direct hi
  obtain ⟨d, hd, hds⟩ := exists_of_mem_direct hj
  rw [hc, Option.bind_some] at hv
  rw [hd, Option.bind_some] at hw
  rw [(directRecord?_eq_some hv).1, (directRecord?_eq_some hw).1, Option.some.injEq] at hs
  exact index_eq_of_subject h hc hd (by rw [hcs, hds, hs])

theorem pairwise_requiredRecords (h : (r.constraints.map Constraint.subject).Nodup) :
    (r.requiredRecords ctx (policy.partition r ctx.view r.constraintIndices).required).Pairwise
      fun v w => v.subject ≠ w.subject := by
  have indices : (policy.partition r ctx.view r.constraintIndices).required.Pairwise
      fun p q => p.index ≠ q.index :=
    List.pairwise_map.mp
      (List.nodup_range.sublist (policy.required_sublist r ctx.view r.constraintIndices))
  refine List.pairwise_filterMap.mpr (indices.imp_of_mem fun hp hq hne v hv w hw hs => hne ?_)
  obtain ⟨c, hc, hcs⟩ := exists_of_mem_required hp
  obtain ⟨d, hd, hds⟩ := exists_of_mem_required hq
  rw [(requiredRecord?_eq_some hv).1, (requiredRecord?_eq_some hw).1, Option.some.injEq] at hs
  exact index_eq_of_subject h hc hd (by rw [hcs, hds, hs])

/-- Failures of constraints that display differently have different keys. -/
theorem nodup_keys_judge (h : (r.constraints.map Constraint.subject).Nodup) :
    (((r.judge policy ctx).violations.filter Violation.isFailure).map Violation.key).Nodup := by
  have differ {v w : Violation} (hs : v.subject ≠ w.subject) : v.key ≠ w.key :=
    fun hk => hs (congrArg Violation.Key.subject hk)
  refine List.pairwise_map.mpr ?_
  rw [judge, judgeOnly, List.filter_append, List.pairwise_append]
  refine ⟨((pairwise_directRecords h).imp differ).filter _,
    ((pairwise_requiredRecords h).imp differ).filter _, fun v hv w hw hk => ?_⟩
  obtain ⟨hv, hvf⟩ := List.mem_filter.mp hv
  obtain ⟨hw, hwf⟩ := List.mem_filter.mp hw
  obtain ⟨i, -, hi⟩ := List.mem_filterMap.mp hv
  obtain ⟨c, -, hc⟩ := Option.bind_eq_some_iff.mp hi
  obtain ⟨q, -, hq⟩ := List.mem_filterMap.mp hw
  -- A direct failure is a violated constraint, a required one a missing predicate.
  have kinds : v.kind = w.kind := congrArg Violation.Key.kind hk
  rcases (directRecord?_eq_some hc).2 with hv | hv <;>
    rcases (requiredRecord?_eq_some hq).2 with hw | hw <;>
      simp_all [Violation.isFailure]

end Rule

namespace Session

/-! ## Failures in reports -/

/-- The constraints of an object that the last pass found violated or missing. -/
def failures (s : Session) (o : Tracked) : List Violation :=
  (s.judgement o).violations.filter Violation.isFailure

/-- Nothing permanent is a failure. -/
def Unfailed (s : Session) : Prop := ∀ v ∈ s.permanent.records, v.isFailure = false

theorem unfailed_start {settings : Settings} {rules : Rulebook} {subtyping : Subtyping}
    {s : Session} (h : start settings rules subtyping = .ok s) : s.Unfailed := by
  intro v hv
  obtain ⟨d, rfl⟩ := exists_malformed_of_start h v hv
  rfl

theorem Unfailed.pass {s : Session} (h : s.Unfailed) : s.pass.1.Unfailed := by
  intro v hv
  rw [permanent_pass, Report.mem_records_extend] at hv
  rcases hv with hv | ⟨hv, -⟩
  · exact h v hv
  · obtain ⟨o, -, hv⟩ := List.mem_flatMap.mp ((distinctBy_sublist _ _).subset hv)
    rcases (Tracked.typestate_of_mem_violations hv).2 with hk | hk <;>
      simp [Violation.isFailure, hk]

theorem Unfailed.run {s : Session} (h : s.Unfailed) (ops : List Op) : (s.run ops).Unfailed := by
  induction ops generalizing s with
  | nil => exact h
  | cons op ops ih =>
    rw [run_cons]
    refine ih ?_
    by_cases hop : op = .pass
    · subst hop
      exact h.pass
    · obtain ⟨objects, registry, inbox, he⟩ := s.exists_perform_eq hop
      rw [he]
      exact h

/-- The failures in a report after a pass are those of the object, each key once. -/
theorem failures_report_pass {s : Session} (h : s.Unfailed)
    (distinct : (s.objects.map Tracked.id).Nodup) {o : Tracked} (ho : o ∈ s.pass.1.objects) :
    s.pass.1.report.records.filter (Violation.isFailureOf o.id) =
      distinctBy Violation.key (s.pass.1.failures o) := by
  have permanent : s.pass.1.permanent.records.filter (Violation.isFailureOf o.id) = [] :=
    List.filter_eq_nil_iff.mpr fun v hv => by simp [Violation.isFailureOf, h.pass v hv]
  have ids : (s.pass.1.objects.map fun o => some o.id).Nodup :=
    nodup_some (by rwa [ids_pass])
  have own : (s.pass.1.objects.flatMap fun o => (s.pass.1.judgement o).violations).filter
      (Violation.isFailureOf o.id) = s.pass.1.failures o := by
    rw [failures, ← filter_flatMap_owner s.pass.1.owned_judgement ids ho, List.filter_filter]
    exact List.filter_congr fun v _ => by rw [Violation.isFailureOf, beq_eq_decide]
  rw [report, Report.merge,
    Report.filter_records_extend fun _ _ => Violation.isFailureOf_of_key o.id, permanent]
  change (Report.empty.extend _).records = _
  rw [Report.records_extend_empty, findings_pass, Report.records_extend_empty,
    filter_distinctBy fun _ _ => Violation.isFailureOf_of_key o.id, own,
    distinctBy_eq_self (nodup_distinctBy _ _)]

/-- **No failure is lost while the keys differ.** After a pass, the records of violated
constraints and missing predicates of an object are its failures, each key once. They are as
many as its failures just if no two failures have the same key, and so whenever the
constraints of its rule display differently. -/
theorem failures_of_run {settings : Settings} {rules : Rulebook} {subtyping : Subtyping}
    {s : Session} (h : start settings rules subtyping = .ok s) (ops : List Op) :
    let t := (s.run ops).pass.1
    ∀ o ∈ t.objects,
      let records := t.report.records.filter (Violation.isFailureOf o.id)
      records = distinctBy Violation.key (t.failures o) ∧
        (records.length = (t.judgement o).misuses ↔
          ((t.failures o).map Violation.key).Nodup) ∧
        ((o.rule.constraints.map Constraint.subject).Nodup →
          records.length = (t.judgement o).misuses) := by
  intro t o ho records
  have distinct := ((chronicle_start h).run ops).distinct
  have kept : records = distinctBy Violation.key (t.failures o) :=
    failures_report_pass ((unfailed_start h).run ops) distinct ho
  have misuses : (t.judgement o).misuses = (t.failures o).length := Rule.misuses_judge
  rw [kept, misuses, length_distinctBy_eq_iff]
  exact ⟨rfl, Iff.rfl, Rule.nodup_keys_judge⟩

/-! ## Methods of one name -/

/-- A cipher is wiped by each of some methods in the end. -/
def wipingRule (methods : List Signature) : Rule :=
  { Rule.empty "Cipher" with
    automaton :=
      { states := [⟨"new", false⟩, ⟨"ready", true⟩]
        initial := ["new"]
        transitions := [⟨"new", "ready", [.ofParams "Cipher.init" []]⟩] }
    constraints := methods.map fun m => .atom ⟨"callTo", [.method m], false⟩ }

def wipingSession (methods : List Signature) : Session :=
  { settings := Preset.balanced.settings
    rules := Rulebook.empty.insert false (wipingRule methods)
    subtyping := fun a b => a == b
    registry := .empty, inbox := [], objects := [], store := .empty
    permanent := .empty, findings := .empty, passes := 0 }

def wipingOps : List Op :=
  [.track "c" "c@1" "Cipher", .observe "c" ⟨"1", ⟨"Cipher", "init", []⟩, "Cipher"⟩]

/-- Two methods of different names. -/
def wipeAndClear : List Signature := [.ofParams "Cipher.wipe" [], .ofParams "Cipher.clear" []]

theorem failures_of_run_wipe :
    start (wipingSession wipeAndClear).settings (wipingSession wipeAndClear).rules
        (wipingSession wipeAndClear).subtyping = .ok (wipingSession wipeAndClear) ∧
      let t := ((wipingSession wipeAndClear).run wipingOps).pass.1
      t.objects.map Tracked.id = ["c"] ∧ ∀ o ∈ t.objects,
        (o.rule.constraints.map Constraint.subject).Nodup ∧ (t.judgement o).misuses = 2 ∧
          (t.report.records.filter (Violation.isFailureOf o.id)).length =
            (t.judgement o).misuses := by
  have started : start (wipingSession wipeAndClear).settings (wipingSession wipeAndClear).rules
      (wipingSession wipeAndClear).subtyping = .ok (wipingSession wipeAndClear) := rfl
  have judged : ∀ o ∈ ((wipingSession wipeAndClear).run wipingOps).pass.1.objects,
      (o.rule.constraints.map Constraint.subject).Nodup ∧
        (((wipingSession wipeAndClear).run wipingOps).pass.1.judgement o).misuses = 2 := by
    decide
  refine ⟨started, by decide, fun o ho => ?_⟩
  obtain ⟨display, two⟩ := judged o ho
  exact ⟨display, two, (failures_of_run started wipingOps o ho).2.2 display⟩

/-- Two methods of one name. -/
def wipeTwice : List Signature :=
  [.ofParams "Cipher.wipe" [], .ofParams "Cipher.wipe" [⟨"_", "byte[]"⟩]]

/-- Neither method is called, and the report has one record for the two failures. -/
theorem failures_of_overloads :
    start (wipingSession wipeTwice).settings (wipingSession wipeTwice).rules
        (wipingSession wipeTwice).subtyping = .ok (wipingSession wipeTwice) ∧
      let t := ((wipingSession wipeTwice).run wipingOps).pass.1
      (∀ o ∈ t.objects, o.rule.constraints.Pairwise fun c d => c.same d = false) ∧
        t.objects.map (fun o => (t.judgement o).misuses) = [2] ∧
        t.objects.map (fun o => (t.report.records.filter (Violation.isFailureOf o.id)).length) =
          [1] := by
  refine ⟨rfl, ?_⟩
  decide

end Session

end Misuse
