import Misuse.Proofs.Apart

/-!
# One pass after another

A pass that follows another with nothing in between has no calls to apply, no bindings to
receive and no queries to ask (`pass_settled`). It may have effects to publish, though: one
that was held back may have a guard that holds against what the first pass has left. It
does nothing exactly if there is no such effect (`pass_pass_iff`), so passes are idempotent
where no guard looks up what effects are about (`quiet_of_isolated`).
-/

namespace Misuse.Session

/-! ## Passes over settled sessions -/

/-- Nothing waits for the next pass: no binding and no call. -/
structure Settled (s : Session) : Prop where
  inbox : s.inbox = []
  queued : ∀ o ∈ s.objects, o.queued = []

theorem settled_of_pass (s : Session) : s.pass.1.Settled := by
  refine ⟨?_, fun o ho => ?_⟩
  · rw [pass_fst, judge_publish, prepare_eq]
  · obtain ⟨_, -, -, -, hqueued, -, -⟩ := exists_of_mem_pass ho
    exact hqueued

/-- A session at the beginning of its next pass. -/
def counted (s : Session) : Session := { s with passes := s.passes + 1 }

variable {s : Session}

theorem drain_of_inbox (h : s.inbox = []) : s.drain = (s, 0) := by
  unfold drain
  rw [h]
  cases s
  cases h
  rfl

theorem applyQueued_of_queued (m : Matcher) {o : Tracked} (h : o.queued = []) :
    o.applyQueued m = ⟨o, [], []⟩ := by
  unfold Tracked.applyQueued
  rw [h]
  cases o
  cases h
  rfl

theorem applyCalls_of_queued (h : ∀ o ∈ s.objects, o.queued = []) : s.applyCalls = (s, []) := by
  have same : s.objects.map (Tracked.applyQueued s.matcher) =
      s.objects.map fun o => ⟨o, [], []⟩ :=
    List.map_congr_left fun o ho => applyQueued_of_queued s.matcher (h o ho)
  have quiet : s.objects.flatMap (fun _ => ([] : List Violation)) = [] := by simp
  have unasked : s.objects.flatMap (fun _ => ([] : List Query)) = [] := by simp
  simp only [applyCalls, same, List.map_map, List.flatMap_map, Function.comp_def, List.map_id',
    quiet, unasked]
  rfl

theorem total_queued (h : ∀ o ∈ s.objects, o.queued = []) :
    (s.total fun o => o.queued.length) = 0 := by
  unfold total
  generalize s.objects = os at h
  induction os with
  | nil => rfl
  | cons o os ih =>
    rw [List.foldr_cons, ih fun o ho => h o (List.mem_cons_of_mem _ ho)]
    simp [h o (List.mem_cons_self ..)]

/-- The phases of a pass, from the start. -/
theorem pass_eq (s : Session) :
    s.pass =
      let early := s.counted.drain
      let calls := early.1.applyCalls
      let asked := calls.1.askAll calls.2
      let late := asked.1.drain
      let published := late.1.publish
      let t := published.1.judge
      (t,
        { pass := t.passes
          objects := t.objects.length
          callsApplied := s.total fun o => o.queued.length
          bindingsReceived := early.2 + late.2
          queriesAsked := asked.2
          factsPublished := published.2.1
          retractions := published.2.2
          deferred := t.total fun o => o.due.length
          pending := t.total fun o => o.pending.length
          violations := t.report.size }) := by
  simp only [pass, passBy, counted]

/-- **With nothing waiting, a pass publishes and judges.** -/
theorem pass_settled (h : s.Settled) :
    s.pass.1 = s.counted.publish.1.judge ∧
      s.pass.2.callsApplied = 0 ∧ s.pass.2.bindingsReceived = 0 ∧ s.pass.2.queriesAsked = 0 ∧
      s.pass.2.factsPublished = s.counted.publish.2.1 ∧
      s.pass.2.retractions = s.counted.publish.2.2 := by
  have hdrain : s.counted.drain = (s.counted, 0) := drain_of_inbox h.inbox
  have hcalls : s.counted.applyCalls = (s.counted, []) := applyCalls_of_queued h.queued
  have hask : s.counted.askAll [] = (s.counted, 0) := rfl
  rw [pass_eq]
  simp only [hdrain, hcalls, hask, total_queued h.queued, Nat.add_zero, and_self]

/-! ## Effects that are ready -/

/-- A due effect with facts to give: no query waits for its variables, and its guard holds
against the store. -/
def Ready (s : Session) (store : FactStore) (o : Tracked) (t : Trigger) : Prop :=
  ∃ e, o.rule.effects[t.effect]? = some e ∧
    e.mentions.any (s.waitingVars o.id).contains = false ∧
    guardTruth (s.context store o) e.predicate = .yes ∧
    o.rule.factsOf o.view s.settings.constraints.maxCombinations t ≠ []

theorem yields_eq_nil_iff (s : Session) (store : FactStore) (o : Tracked) (t : Trigger) :
    s.yields (s.waitingVars o.id) store o t = [] ↔ ¬s.Ready store o t := by
  unfold yields fate Ready
  cases he : o.rule.effects[t.effect]? with
  | none => simp
  | some e =>
    simp only [Option.some.injEq, exists_eq_left']
    cases e.mentions.any (s.waitingVars o.id).contains with
    | true => simp
    | false => cases guardTruth (s.context store o) e.predicate <;> simp

/-- **Nothing is published exactly if no due effect is ready.** -/
theorem publish_snd_eq_zero_iff (s : Session) :
    s.publish.2 = (0, 0) ↔ ∀ o ∈ s.objects, ∀ t ∈ o.due, ¬s.Ready s.store o t := by
  rw [publish_snd, Prod.mk.injEq, List.length_eq_zero_iff, List.length_eq_zero_iff,
    publication_idle_iff]
  refine forall₂_congr fun o _ => forall₂_congr fun t _ => ?_
  exact s.yields_eq_nil_iff s.store o t

/-! ## Two passes -/

/-- Publishing nothing leaves a judged session nothing else to find. -/
theorem report_counted {t u : Session} (hu : t = u.judge) (h : t.counted.publish.2 = (0, 0)) :
    t.counted.publish.1.judge.report = t.report := by
  rw [publish_snd, Prod.mk.injEq, List.length_eq_zero_iff, List.length_eq_zero_iff] at h
  obtain ⟨he, hw⟩ := h
  subst hu
  have hstore : u.judge.counted.publish.1.store = u.store := by
    rw [publish_fst, he, hw]
    rfl
  have hframe : u.judge.counted.publish.1.frame = u.frame := by
    rw [frame_publish]
    rfl
  have hpermanent : u.judge.counted.publish.1.judge.permanent = u.judge.permanent := by
    rw [judge_publish]
    rfl
  have hobjects : u.judge.counted.publish.1.objects.map Tracked.settled =
      u.objects.map Tracked.settled := by
    rw [settled_publish]
    exact settled_judge u
  have hfindings : u.judge.counted.publish.1.judge.findings = u.judge.findings := by
    rw [judge_findings, judge_findings, hobjects, judgement_congr hframe fun _ _ => by rw [hstore]]
  rw [report, report, hpermanent, hfindings]

theorem visible_counted {t : Session} (h : t.counted.publish.2 = (0, 0)) :
    t.counted.publish.1.judge.store = t.store := by
  rw [publish_snd, Prod.mk.injEq, List.length_eq_zero_iff, List.length_eq_zero_iff] at h
  rw [judge_publish, h.1, h.2]
  rfl

/-- The next pass does nothing: it applies no calls, publishes and retracts no facts, and
leaves the report and the visible facts alone. -/
structure Quiet (s : Session) : Prop where
  calls : s.pass.2.callsApplied = 0
  facts : s.pass.2.factsPublished = 0
  retractions : s.pass.2.retractions = 0
  report : s.pass.1.report = s.report
  visible : ∀ name, s.pass.1.store.visible name = s.store.visible name

theorem quiet_iff {t u : Session} (ht : t.Settled) (hu : t = u.judge) :
    t.Quiet ↔ ∀ o ∈ t.objects, ∀ d ∈ o.due, ¬t.Ready t.store o d := by
  obtain ⟨hfst, hcalls, -, -, hpublished, hretractions⟩ := pass_settled ht
  have hidle : t.counted.publish.2 = (0, 0) ↔ ∀ o ∈ t.objects, ∀ d ∈ o.due, ¬t.Ready t.store o d :=
    t.counted.publish_snd_eq_zero_iff
  rw [← hidle]
  constructor
  · intro h
    exact Prod.ext (hpublished.symm.trans h.facts) (hretractions.symm.trans h.retractions)
  · intro h
    refine ⟨hcalls, ?_, ?_, ?_, fun name => ?_⟩
    · rw [hpublished, h]
    · rw [hretractions, h]
    · rw [hfst, report_counted hu h]
    · rw [hfst, visible_counted h]

/-- **What a second pass does.** It applies no calls, receives no bindings and asks no
queries. It does nothing at all exactly if no effect that the first pass held back is ready
against the store that pass has left. -/
theorem pass_pass_iff (s : Session) :
    let t := s.pass.1
    t.pass.2.callsApplied = 0 ∧ t.pass.2.bindingsReceived = 0 ∧ t.pass.2.queriesAsked = 0 ∧
      (t.Quiet ↔ ∀ o ∈ t.objects, ∀ d ∈ o.due, ¬t.Ready t.store o d) := by
  obtain ⟨-, hcalls, hbindings, hqueries, -, -⟩ := pass_settled s.settled_of_pass
  exact ⟨hcalls, hbindings, hqueries, quiet_iff s.settled_of_pass s.pass_fst⟩

/-- What is held back stays so if no guard looks up what effects are about. -/
theorem not_ready_of_isolated {s : Session} (h : s.Isolated) :
    ∀ o ∈ s.publish.1.judge.objects, ∀ d ∈ o.due,
      ¬s.publish.1.judge.Ready s.publish.1.judge.store o d := by
  intro o ho d hd
  obtain ⟨a, ha, rfl⟩ := List.mem_map.mp ho
  rw [objects_publish h.apart] at ha
  obtain ⟨b, hb, rfl⟩ := List.mem_map.mp ha
  have deferred : s.fate (s.waitingVars b.id) s.store b d = .deferred := by
    simpa using (List.mem_filter.mp hd).2
  have frame : s.publish.1.judge.frame = s.frame := by rw [frame_judge, frame_publish]
  have waiting : s.publish.1.judge.waitingVars b.id = s.waitingVars b.id := by
    rw [waitingVars, waitingVars, judge_publish]
  have steady : s.yields (s.waitingVars b.id) s.publish.1.store b d =
      s.yields (s.waitingVars b.id) s.store b d := s.yields_congr (h.same_publish hb) _ d
  rw [← yields_eq_nil_iff, yields_frame frame]
  -- only what is due and pending tells the object from the one that was prepared
  change s.yields (s.publish.1.judge.waitingVars b.id) s.publish.1.store b d = []
  rw [waiting, steady]
  simp [yields, deferred]

/-- **Passes are idempotent if no guard looks up what effects are about.** -/
theorem quiet_of_isolated {s : Session} (h : s.Isolated) : s.pass.1.Quiet := by
  refine (quiet_iff s.settled_of_pass s.pass_fst).mpr ?_
  rw [pass_fst]
  exact not_ready_of_isolated h.prepare

/-! ## A guard that comes true -/

/-- A key counts as generated once it is. -/
def keyRule : Rule :=
  { Rule.empty "Key" with
    automaton :=
      { states := [⟨"new", false⟩, ⟨"ready", true⟩]
        initial := ["new"]
        transitions := [⟨"new", "ready", [.ofParams "Key.generate" []]⟩] }
    effects := [⟨.plain "generated" [.self], none⟩] }

/-- A cipher is prepared if there is a generated key, or else for AES. -/
def guardedRule : Rule :=
  { Rule.empty "Cipher" with
    declarations := [⟨"alg", "String"⟩]
    automaton :=
      { states := [⟨"new", false⟩, ⟨"ready", true⟩]
        initial := ["new"]
        transitions := [⟨"new", "ready", [.ofParams "Cipher.init" [⟨"alg", "String"⟩]]⟩] }
    constraints := [.atom ⟨"prepared", [.self], false⟩]
    effects :=
      [⟨(Predicate.plain "prepared" [.self]).guardedBy
          (.connect (.atom ⟨"generated", [.wildcard], false⟩) .or
            (.member (.whole "alg" "String") ["AES"])), none⟩] }

def guardedSession : Session :=
  { settings := Preset.balanced.settings
    rules := (Rulebook.empty.insert false keyRule).insert false guardedRule
    subtyping := fun a b => a == b
    registry := .empty, inbox := [], objects := [], store := .empty
    permanent := .empty, findings := .empty, passes := 0 }

/-- The cipher is tracked before the key, and nothing is known of its algorithm. -/
def guardedOps : List Op :=
  [.track "c" "c@1" "Cipher", .track "k" "k@1" "Key",
   .observe "c" ⟨"1", ⟨"Cipher", "init", ["String"]⟩, "Cipher"⟩,
   .observe "k" ⟨"2", ⟨"Key", "generate", []⟩, "Key"⟩,
   .supply ⟨"c", "1", "alg", .argument 0⟩ [.unresolved]]

/-- The first pass holds the effect on the cipher back and records a misuse. The second one
publishes the effect, and the record is gone. -/
theorem pass_pass_guarded :
    let t := (guardedSession.run guardedOps).pass.1
    start guardedSession.settings guardedSession.rules guardedSession.subtyping =
        .ok guardedSession ∧
      guardedSession.rules.rejected = [] ∧
      ¬t.Quiet ∧
      t.pass.2.factsPublished = 1 ∧
      t.store.visible "prepared" = [] ∧
      t.pass.1.store.visible "prepared" = [[.object "c@1"]] ∧
      t.report.records.map Violation.kind = [.missingPredicate] ∧
      t.pass.1.report.records = [] := by
  intro t
  have published : t.pass.2.factsPublished = 1 := by decide
  have loud : ¬t.Quiet := fun quiet => Nat.one_ne_zero (published.symm.trans quiet.facts)
  exact ⟨rfl, by decide, loud, published, by decide, by decide, by decide, by decide⟩

end Misuse.Session
