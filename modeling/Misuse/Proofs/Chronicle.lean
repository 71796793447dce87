import Misuse.Proofs.Records
import Misuse.Proofs.Runs

/-!
# What a session knows of calls

The typestate of an object is a function of the calls observed on it. However operations
are interleaved, the applied calls of an object followed by its queued ones are those that
were observed on it, its states are the fold of `advance` over the applied ones, and the
records of misplaced and banned calls are the violations of these folds, each key once
(`typestate_of_run`). The invariant is `Chronicle`: a step lemma for operations between
passes, one for passes, and the induction over runs.
-/

namespace Misuse

namespace Violation

/-- A record of the typestate: a misplaced or a banned call. -/
def isTypestate (v : Violation) : Bool := v.kind == .ordering || v.kind == .forbiddenCall

/-- A record of the typestate of one object. -/
def isTypestateOf (object : String) (v : Violation) : Bool :=
  v.isTypestate && v.object == some object

theorem isTypestate_of_key {v w : Violation} (h : v.key = w.key) :
    v.isTypestate = w.isTypestate := by
  have : v.kind = w.kind := congrArg Key.kind h
  simp [isTypestate, this]

theorem object_of_key {v w : Violation} (h : v.key = w.key) : v.object = w.object :=
  congrArg Key.object h

theorem isTypestateOf_of_key (object : String) {v w : Violation} (h : v.key = w.key) :
    v.isTypestateOf object = w.isTypestateOf object := by
  simp [isTypestateOf, isTypestate_of_key h, object_of_key h]

end Violation

/-! ## Findings -/

namespace Rule

/-- What is judged names the object, and is no record of the typestate. -/
theorem object_of_mem_judge {r : Rule} {policy : Policy} {ctx : Context} {v : Violation}
    (h : v ∈ (r.judge policy ctx).violations) :
    v.object = some ctx.view.object ∧ v.isTypestate = false := by
  rcases List.mem_append.mp h with h | h
  · obtain ⟨i, -, hi⟩ := List.mem_filterMap.mp h
    obtain ⟨c, -, hc⟩ := Option.bind_eq_some_iff.mp hi
    simp only [directRecord?] at hc
    split at hc <;> cases hc <;> exact ⟨rfl, rfl⟩
  · obtain ⟨q, -, hq⟩ := List.mem_filterMap.mp h
    unfold requiredRecord? at hq
    split at hq <;> cases hq <;> exact ⟨rfl, rfl⟩

end Rule

namespace Session

/-! ## The invariant -/

/-- The session knows of every object the calls that were observed on it, and of its applied
calls exactly what they lead to. -/
structure Chronicle (s : Session) (calls : String → List Call) : Prop where
  distinct : (s.objects.map Tracked.id).Nodup
  seen : ∀ o ∈ s.objects, o.calls ++ o.queued = calls o.id
  unseen : ∀ id, s.tracks id = false → calls id = []
  states : ∀ o ∈ s.objects,
    o.states = o.rule.statesAlong s.matcher o.id o.rule.automaton.initial o.calls
  records : ∀ o ∈ s.objects, s.permanent.records.filter (Violation.isTypestateOf o.id) =
    distinctBy Violation.key (o.rule.violationsOf s.matcher o.id o.calls)
  owned : ∀ v ∈ s.permanent.records, v.isTypestate = true → ∃ o ∈ s.objects, v.object = some o.id
  keys : s.permanent.Distinct
  findings : ∀ v ∈ s.findings.records, v.isTypestate = false

variable {s : Session} {calls : String → List Call}

theorem Chronicle.records_of_untracked (h : s.Chronicle calls) {id : String}
    (hid : s.tracks id = false) :
    s.permanent.records.filter (Violation.isTypestateOf id) = [] := by
  rw [List.filter_eq_nil_iff]
  intro v hv ht
  simp only [Violation.isTypestateOf, Bool.and_eq_true, beq_iff_eq] at ht
  obtain ⟨o, ho, hobject⟩ := h.owned v hv ht.1
  have : id = o.id := Option.some.inj (ht.2.symm.trans hobject)
  rw [this, tracks_of_mem ho] at hid
  cases hid

/-- The records at the start are of malformed rules. -/
theorem exists_malformed_of_start {settings : Settings} {rules : Rulebook} {subtyping : Subtyping}
    (h : start settings rules subtyping = .ok s) :
    ∀ v ∈ s.permanent.records, ∃ d, v = .malformedRule d := by
  intro v hv
  rw [eq_of_start h, Report.records_extend_empty] at hv
  obtain ⟨d, -, rfl⟩ := List.mem_map.mp ((distinctBy_sublist _ _).subset hv)
  exact ⟨d, rfl⟩

theorem chronicle_start {settings : Settings} {rules : Rulebook} {subtyping : Subtyping}
    (h : start settings rules subtyping = .ok s) : s.Chronicle fun _ => [] := by
  have malformed := exists_malformed_of_start h
  rw [eq_of_start h] at malformed ⊢
  refine ⟨List.nodup_nil, by simp, by simp, by simp, by simp, ?_, ?_, by simp [Report.empty]⟩
  · intro v hv ht
    obtain ⟨d, rfl⟩ := malformed v hv
    cases ht
  · exact Report.distinct_extend (by simp [Report.Distinct]) _

theorem matcher_start {settings : Settings} {rules : Rulebook} {subtyping : Subtyping}
    (h : start settings rules subtyping = .ok s) :
    s.matcher = ⟨subtyping, settings.typestate.fuzzyMatching⟩ := by
  rw [eq_of_start h]
  rfl

/-! ## Steps -/

/-- Between passes calls are only queued. -/
theorem Chronicle.perform (h : s.Chronicle calls) {op : Op} (hop : op ≠ .pass) :
    (s.perform op).Chronicle fun id => calls id ++ s.callsOn id op := by
  obtain ⟨objects, registry, inbox, he⟩ := s.exists_perform_eq hop
  obtain ⟨change, fresh, hb⟩ := s.between_perform hop
  rw [he] at hb ⊢
  have ids : (s.objects.map change).map Tracked.id = s.objects.map Tracked.id := by
    rw [List.map_map]
    exact List.map_congr_left fun o ho => (hb.queues o ho).id
  have hobjects : objects = s.objects.map change ++ fresh := hb.objects
  have origins : ∀ o' ∈ objects, (∃ o ∈ s.objects, o' = change o) ∨
      (∃ id self rule, o' = .start id self rule ∧ s.tracks id = false) := by
    intro o' ho'
    rw [hobjects] at ho'
    rcases List.mem_append.mp ho' with ho' | ho'
    · obtain ⟨o, ho, rfl⟩ := List.mem_map.mp ho'
      exact .inl ⟨o, ho, rfl⟩
    · rcases hb.fresh with rfl | ⟨id, self, _, rule, -, hid, rfl⟩
      · cases ho'
      · exact .inr ⟨id, self, rule, List.mem_singleton.mp ho', hid⟩
  have tracked : ∀ o ∈ s.objects, ∃ o' ∈ objects, o'.id = o.id := fun o ho =>
    ⟨change o, by rw [hobjects]; exact List.mem_append_left _ (List.mem_map_of_mem ho),
      (hb.queues o ho).id⟩
  refine ⟨?_, ?_, ?_, ?_, ?_, ?_, h.keys, h.findings⟩
  · change (objects.map Tracked.id).Nodup
    rw [hobjects, List.map_append, ids]
    rcases hb.fresh with rfl | ⟨id, self, _, rule, -, hid, rfl⟩
    · simpa using h.distinct
    · have hnew : id ∉ s.objects.map Tracked.id := by
        rw [← tracks_eq_true_iff, hid]
        exact Bool.false_ne_true
      exact List.nodup_append.mpr ⟨h.distinct, by simp, by
        rintro _ ha _ hfresh rfl
        rw [List.mem_singleton.mp hfresh] at ha
        exact hnew ha⟩
  · intro o' ho'
    rcases origins o' ho' with ⟨o, ho, rfl⟩ | ⟨id, self, rule, rfl, hid⟩
    · have q := hb.queues o ho
      rw [q.calls, q.queued, ← List.append_assoc, h.seen o ho, q.id]
    · rw [show (Tracked.start id self rule).id = id from rfl, h.unseen id hid,
        callsOn_eq_nil hid]
      rfl
  · intro id hid
    have hs : s.tracks id = false := by
      rw [Bool.eq_false_iff]
      intro ht
      obtain ⟨o, ho, rfl⟩ := List.mem_map.mp ((s.tracks_eq_true_iff id).mp ht)
      obtain ⟨o', ho', hid'⟩ := tracked o ho
      rw [← hid', tracks_of_mem ho'] at hid
      cases hid
    simp only [h.unseen id hs, callsOn_eq_nil hs, List.append_nil]
  · intro o' ho'
    rcases origins o' ho' with ⟨o, ho, rfl⟩ | ⟨id, self, rule, rfl, hid⟩
    · have q := hb.queues o ho
      rw [q.states, q.rule, q.id, q.calls]
      exact h.states o ho
    · rfl
  · intro o' ho'
    rcases origins o' ho' with ⟨o, ho, rfl⟩ | ⟨id, self, rule, rfl, hid⟩
    · have q := hb.queues o ho
      rw [q.rule, q.id, q.calls]
      exact h.records o ho
    · exact h.records_of_untracked hid
  · intro v hv ht
    obtain ⟨o, ho, hobject⟩ := h.owned v hv ht
    obtain ⟨o', ho', hid⟩ := tracked o ho
    exact ⟨o', ho', hobject.trans (congrArg some hid.symm)⟩

theorem owned_violations (s : Session) :
    Owned (fun o => (s.advanced o).violations) Violation.object fun o => some o.id := by
  intro o v hv
  have := (Tracked.typestate_of_mem_violations hv).1
  rwa [Tracked.id_receive] at this

theorem owned_judgement (s : Session) :
    Owned (fun o => (s.judgement o).violations) Violation.object fun o => some o.id :=
  fun _ _ hv => (Rule.object_of_mem_judge hv).1

theorem nodup_some {os : List Tracked} (h : (os.map Tracked.id).Nodup) :
    (os.map fun o => some o.id).Nodup :=
  List.pairwise_map.mpr ((List.pairwise_map.mp h).imp fun hne hc => hne (Option.some.inj hc))

/-- The calls of one object add its own part to the records of a pass. -/
theorem filter_advanced {s : Session} (h : (s.objects.map Tracked.id).Nodup) {o : Tracked}
    (ho : o ∈ s.objects) :
    (s.objects.flatMap fun o => (s.advanced o).violations).filter
        (Violation.isTypestateOf o.id) =
      (s.advanced o).violations := by
  have same : ∀ v ∈ s.objects.flatMap fun o => (s.advanced o).violations,
      v.isTypestateOf o.id = decide (v.object = some o.id) := by
    intro v hv
    obtain ⟨a, -, hv⟩ := List.mem_flatMap.mp hv
    have ht : v.isTypestate = true := by
      rcases (Tracked.typestate_of_mem_violations hv).2 with hk | hk <;>
        simp [Violation.isTypestate, hk]
    rw [Violation.isTypestateOf, ht, Bool.true_and, Bool.eq_iff_iff, beq_iff_eq, decide_eq_true_iff]
  rw [List.filter_congr same]
  exact filter_flatMap_owner s.owned_violations (nodup_some h) ho

/-- A pass applies the queued calls and records what they violate. -/
theorem Chronicle.pass (h : s.Chronicle calls) : s.pass.1.Chronicle calls := by
  have matcher : s.pass.1.matcher = s.matcher := matcher_eq_of_frame s.frame_pass
  refine ⟨?_, ?_, ?_, ?_, ?_, ?_, ?_, ?_⟩
  · rw [ids_pass]
    exact h.distinct
  · intro o' ho'
    obtain ⟨o, ho, hid, -, hqueued, hcalls, -⟩ := exists_of_mem_pass ho'
    rw [hqueued, hcalls, List.append_nil, hid]
    exact h.seen o ho
  · intro id hid
    refine h.unseen id ?_
    rw [Bool.eq_false_iff] at hid ⊢
    rwa [Ne, tracks_eq_true_iff, ids_pass, ← tracks_eq_true_iff] at hid
  · intro o' ho'
    obtain ⟨o, ho, hid, hrule, -, hcalls, hstates⟩ := exists_of_mem_pass ho'
    rw [matcher, hid, hrule, hcalls, hstates, Rule.statesAlong_append, ← h.states o ho]
  · intro o' ho'
    obtain ⟨o, ho, hid, hrule, -, hcalls, -⟩ := exists_of_mem_pass ho'
    have steps : (s.advanced o).violations =
        (o.rule.stepsAlong s.matcher o.id o.states o.queued).flatMap Step.violations := by
      simp [advanced, Tracked.applyQueued_eq, Tracked.queuedSteps]
    have before : (⟨distinctBy Violation.key (o.rule.violationsOf s.matcher o.id o.calls)⟩ :
        Report) = Report.empty.extend (o.rule.violationsOf s.matcher o.id o.calls) := by
      rw [← Report.records_extend_empty]
    rw [matcher, hid, hrule, hcalls, permanent_pass,
      Report.filter_records_extend (fun _ _ => Violation.isTypestateOf_of_key o.id),
      h.records o ho, filter_advanced h.distinct ho, before, ← Report.extend_append,
      Report.records_extend_empty, steps, Rule.violationsOf, Rule.violationsOf,
      Rule.stepsAlong_append, List.flatMap_append, ← h.states o ho]
  · intro v hv ht
    have tracked : ∀ o ∈ s.objects, ∃ o' ∈ s.pass.1.objects, o'.id = o.id := by
      intro o ho
      have : o.id ∈ s.pass.1.objects.map Tracked.id := by
        rw [ids_pass]
        exact List.mem_map_of_mem ho
      exact List.mem_map.mp this
    rw [permanent_pass, Report.mem_records_extend] at hv
    have owner : ∃ o ∈ s.objects, v.object = some o.id := by
      rcases hv with hv | ⟨hv, -⟩
      · exact h.owned v hv ht
      · obtain ⟨o, ho, hv⟩ := List.mem_flatMap.mp ((distinctBy_sublist _ _).subset hv)
        exact ⟨o, ho, s.owned_violations o v hv⟩
    obtain ⟨o, ho, hobject⟩ := owner
    obtain ⟨o', ho', hid⟩ := tracked o ho
    exact ⟨o', ho', hobject.trans (congrArg some hid.symm)⟩
  · rw [permanent_pass]
    exact Report.distinct_extend h.keys _
  · intro v hv
    rw [pass_fst, judge_findings, Report.records_extend_empty] at hv
    obtain ⟨o, -, hv⟩ := List.mem_flatMap.mp ((distinctBy_sublist _ _).subset hv)
    exact (Rule.object_of_mem_judge hv).2

/-- After a pass every call that was observed on an object has been applied to it. -/
theorem Chronicle.calls_of_mem_pass (h : s.Chronicle calls) {o : Tracked}
    (ho : o ∈ s.pass.1.objects) : o.calls = calls o.id := by
  obtain ⟨_, -, -, -, queued, -⟩ := exists_of_mem_pass ho
  have seen := h.pass.seen o ho
  rwa [queued, List.append_nil] at seen

/-! ## Runs -/

/-- The invariant holds of every run. -/
theorem Chronicle.run (h : s.Chronicle calls) (ops : List Op) :
    (s.run ops).Chronicle fun id => calls id ++ s.observed id ops := by
  induction ops generalizing s calls with
  | nil => simpa [observed] using h
  | cons op ops ih =>
    have step : (s.perform op).Chronicle fun id => calls id ++ s.callsOn id op := by
      by_cases hop : op = .pass
      · subst hop
        simpa [callsOn, Session.perform] using h.pass
      · exact h.perform hop
    simpa [observed, run_cons] using ih step

/-- Findings are no records of the typestate, so the report has those of the passes. -/
theorem Chronicle.report_records (h : s.Chronicle calls) :
    s.report.records.filter Violation.isTypestate =
      s.permanent.records.filter Violation.isTypestate := by
  have unrelated : s.findings.records.filter Violation.isTypestate = [] :=
    List.filter_eq_nil_iff.mpr fun v hv => by simp [h.findings v hv]
  rw [report, Report.merge,
    Report.filter_records_extend fun _ _ => Violation.isTypestate_of_key, unrelated]
  rfl

/-- The records of the typestate are those of the objects, each from its own calls. -/
theorem Chronicle.mem_report_iff (h : s.Chronicle calls) (v : Violation) :
    v ∈ s.report.records.filter Violation.isTypestate ↔
      ∃ o ∈ s.objects, v ∈ distinctBy Violation.key (o.rule.violationsOf s.matcher o.id o.calls) := by
  rw [h.report_records]
  constructor
  · intro hv
    obtain ⟨hv, ht⟩ := List.mem_filter.mp hv
    obtain ⟨o, ho, hobject⟩ := h.owned v hv ht
    refine ⟨o, ho, ?_⟩
    rw [← h.records o ho]
    exact List.mem_filter.mpr ⟨hv, by simp [Violation.isTypestateOf, ht, hobject]⟩
  · rintro ⟨o, ho, hv⟩
    rw [← h.records o ho] at hv
    obtain ⟨hv, ht⟩ := List.mem_filter.mp hv
    exact List.mem_filter.mpr ⟨hv, (Bool.and_eq_true_iff.mp ht).1⟩

theorem owned_violationsOf (m : Matcher) :
    Owned (fun o : Tracked => o.rule.violationsOf m o.id o.calls) Violation.object
      fun o => some o.id :=
  fun _ _ hv => (Rule.typestate_of_mem_stepsAlong hv).1

/-- **The records of the typestate are the violations of the applied calls, each key once.** -/
theorem Chronicle.report_perm (h : s.Chronicle calls) :
    (s.report.records.filter Violation.isTypestate).Perm
      (distinctBy Violation.key
        (s.objects.flatMap fun o => o.rule.violationsOf s.matcher o.id o.calls)) := by
  have once : (s.report.records.filter Violation.isTypestate).Nodup := by
    rw [h.report_records]
    exact (nodup_of_keys h.keys).filter _
  refine (List.perm_ext_iff_of_nodup once (nodup_of_keys (nodup_distinctBy _ _))).mpr
    fun v => ?_
  rw [h.mem_report_iff, mem_distinctBy_flatMap (fun _ _ => Violation.object_of_key)
    (owned_violationsOf s.matcher) (nodup_some h.distinct)]

/-- **Typestate is a function of the observed calls.** After any run, the applied calls of
an object followed by its queued ones are those that were observed on it, its states are the
fold of `advance` over the applied ones, and the records of misplaced and banned calls are
the violations of these folds, each key once. -/
theorem typestate_of_run {settings : Settings} {rules : Rulebook} {subtyping : Subtyping}
    (h : start settings rules subtyping = .ok s) (ops : List Op) :
    let m : Matcher := ⟨subtyping, settings.typestate.fuzzyMatching⟩
    let t := s.run ops
    (∀ o ∈ t.objects,
      o.calls ++ o.queued = s.observed o.id ops ∧
        o.states = o.calls.foldl (fun states call => (o.rule.advance m o.id states call).states)
          o.rule.automaton.initial) ∧
    (∀ id, t.tracks id = false → s.observed id ops = []) ∧
    (t.report.records.filter Violation.isTypestate).Perm
      (distinctBy Violation.key
        (t.objects.flatMap fun o => o.rule.violationsOf m o.id o.calls)) := by
  intro m t
  have chronicle : t.Chronicle fun id => [] ++ s.observed id ops := (chronicle_start h).run ops
  have hm : t.matcher = m := by
    rw [matcher_eq_of_frame (s.frame_run ops)]
    exact matcher_start h
  rw [← hm]
  refine ⟨fun o ho => ⟨?_, chronicle.states o ho⟩, chronicle.unseen, chronicle.report_perm⟩
  exact chronicle.seen o ho

/-! ## Two ciphers -/

/-- A cipher is initialised, and then updated as often as one likes. -/
def cipherRule : Rule :=
  { Rule.empty "Cipher" with
    automaton :=
      { states := [⟨"new", false⟩, ⟨"ready", true⟩]
        initial := ["new"]
        transitions :=
          [⟨"new", "ready", [.ofParams "Cipher.init" []]⟩,
           ⟨"ready", "ready", [.ofParams "Cipher.update" []]⟩] } }

def cipherSession : Session :=
  { settings := Preset.balanced.settings
    rules := Rulebook.empty.insert false cipherRule
    subtyping := fun a b => a == b
    registry := .empty, inbox := [], objects := [], store := .empty
    permanent := .empty, findings := .empty, passes := 0 }

/-- The second cipher is updated before it is initialised. -/
def cipherOps : List Op :=
  [.track "a" "a@1" "Cipher", .observe "a" ⟨"1", ⟨"Cipher", "init", []⟩, "Cipher"⟩, .pass,
   .track "b" "b@1" "Cipher", .observe "b" ⟨"2", ⟨"Cipher", "update", []⟩, "Cipher"⟩,
   .observe "a" ⟨"3", ⟨"Cipher", "update", []⟩, "Cipher"⟩, .pass]

theorem typestate_of_run_ciphers :
    start cipherSession.settings cipherSession.rules cipherSession.subtyping =
        .ok cipherSession ∧
      (∀ o ∈ (cipherSession.run cipherOps).objects,
        o.calls ++ o.queued = cipherSession.observed o.id cipherOps) ∧
      (cipherSession.run cipherOps).objects.map Tracked.states = [["ready"], ["new"]] ∧
      (cipherSession.run cipherOps).report.records.map Violation.object = [some "b"] := by
  have started : start cipherSession.settings cipherSession.rules cipherSession.subtyping =
      .ok cipherSession := rfl
  refine ⟨started, fun o ho => ?_, by decide, by decide⟩
  exact ((typestate_of_run started cipherOps).1 o ho).1

end Session

end Misuse
