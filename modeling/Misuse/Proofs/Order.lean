import Misuse.Proofs.Apart
import Misuse.Proofs.Chronicle
import Misuse.Proofs.Repetition
import Misuse.Proofs.Setup

/-!
# The order of tracking

Two sessions that differ in the order of their objects only (`Rearranged`) prepare the same
objects and record the same calls. What a pass leaves visible then depends on the facts it
establishes and withdraws (`Leaves`), and the records depend on what is visible: the two
come out alike exactly if they leave the same facts (`Rearranged.sameOutcome_iff`), and that
is so if no guard looks up what effects establish (`Rearranged.leaves_iff_of_apart`).
-/

namespace Misuse.Session

/-- Two sessions that differ in the order of their objects only. -/
structure Rearranged (s t : Session) : Prop where
  frame : s.frame = t.frame
  objects : ∀ o, o ∈ s.objects ↔ o ∈ t.objects
  distinct : (s.objects.map Tracked.id).Nodup ∧ (t.objects.map Tracked.id).Nodup
  inbox : s.inbox = t.inbox
  status : s.registry.status? = t.registry.status?
  keyed : s.registry.Keyed ∧ t.registry.Keyed
  store : s.store = t.store
  agrees : s.store.Agrees
  permanent : s.permanent = t.permanent

namespace Rearranged

variable {s t : Session}

/-! ## Preparation -/

theorem advanced (h : s.Rearranged t) : s.advanced = t.advanced := by
  funext o
  rw [Session.advanced, Session.advanced, h.inbox, matcher_eq_of_frame h.frame]

theorem readied (h : s.Rearranged t) : s.readied = t.readied := by
  have answers : s.registry.answersTo = t.registry.answersTo := by
    funext q
    rw [Registry.answersTo, Registry.answersTo, h.status]
  funext o
  rw [Session.readied, Session.readied, h.advanced, answers]

/-- **Until facts are published, the order has no bearing on the objects.** -/
theorem mem_objects_prepare (h : s.Rearranged t) (o : Tracked) :
    o ∈ s.prepare.objects ↔ o ∈ t.prepare.objects := by
  rw [objects_prepare h.distinct.1, objects_prepare h.distinct.2, h.readied]
  simp only [List.mem_map, h.objects]

theorem mem_permanent_prepare (h : s.Rearranged t) (v : Violation) :
    v ∈ s.prepare.permanent.records ↔ v ∈ t.prepare.permanent.records := by
  have calls : v ∈ distinctBy Violation.key (s.objects.flatMap fun o => (s.advanced o).violations)
      ↔ v ∈ distinctBy Violation.key (t.objects.flatMap fun o => (t.advanced o).violations) := by
    rw [← h.advanced]
    exact mem_distinctBy_flatMap_congr (fun _ _ => Violation.object_of_key) s.owned_violations
      (nodup_some h.distinct.1) (nodup_some h.distinct.2) h.objects v
  rw [permanent_prepare, permanent_prepare, Report.mem_records_extend, Report.mem_records_extend,
    calls, h.permanent]

end Rearranged

/-! ## Outcomes -/

/-- What a publication leaves visible: what was so before or what an effect establishes at its
turn, unless an effect retracts it. -/
def Leaves (s : Session) (name : String) (args : Args) : Prop :=
  (args ∈ s.store.visible name ∨
      ∃ f, s.Publishes f ∧ f.negated = false ∧ f.name = name ∧ f.args = args) ∧
    ∀ f, s.Publishes f → f.negated = true → f.name = name → Args.cover f.args args = false

/-- The same facts are visible, and the same records are in the report. -/
def SameOutcome (s t : Session) : Prop :=
  (∀ name, s.store.visible name = t.store.visible name) ∧
    ∀ v, v ∈ s.report.records ↔ v ∈ t.report.records

/-- The findings of a pass are judged from the objects as they were prepared. -/
theorem findings_pass_prepare (s : Session) :
    s.pass.1.findings = Report.empty.extend
      (s.prepare.objects.flatMap fun o => (s.prepare.publish.1.judgement o).violations) := by
  rw [pass_fst, judge_findings, settled_publish, List.flatMap_map]
  rfl

theorem permanent_pass_prepare (s : Session) : s.pass.1.permanent = s.prepare.permanent := by
  rw [pass_fst, judge_publish]

/-- What a report holds: what is permanent, and the findings that are no repetition. -/
theorem mem_report_pass (s : Session) (v : Violation) :
    v ∈ s.pass.1.report.records ↔
      v ∈ s.prepare.permanent.records ∨
        v ∈ distinctBy Violation.key (s.prepare.objects.flatMap
            fun o => (s.prepare.publish.1.judgement o).violations) ∧
          s.prepare.permanent.has v = false := by
  rw [report, Report.merge, Report.mem_records_extend, permanent_pass_prepare,
    findings_pass_prepare, Report.records_extend_empty, distinctBy_eq_self (nodup_distinctBy _ _)]

theorem store_pass (s : Session) :
    s.pass.1.store = (s.prepare.store.publishAll s.prepare.established).retractAll
      s.prepare.withdrawn := by
  rw [pass_fst, judge_publish]

theorem mem_visible_pass {s : Session} (h : s.store.Agrees) (name : String) (args : Args) :
    args ∈ s.pass.1.store.visible name ↔ s.prepare.Leaves name args := by
  have agrees : s.prepare.store.Agrees := s.store_prepare ▸ h
  have published := mem_visible_publish_iff agrees name args
  simp only [mem_established_iff, mem_withdrawn_iff, and_assoc, and_imp] at published
  rw [store_pass_eq]
  exact published

theorem agrees_pass {s : Session} (h : s.store.Agrees) : s.pass.1.store.Agrees := by
  rw [store_pass, store_prepare]
  exact (h.publishAll _).retractAll _

theorem agrees_run {s : Session} (h : s.store.Agrees) (ops : List Op) :
    (s.run ops).store.Agrees := by
  induction ops generalizing s with
  | nil => exact h
  | cons op ops ih =>
    refine ih ?_
    by_cases hop : op = .pass
    · subst hop
      exact agrees_pass h
    · rw [s.store_perform hop]
      exact h

namespace Rearranged

variable {s t : Session}

theorem visible_eq_iff (h : s.Rearranged t) :
    (∀ name, s.pass.1.store.visible name = t.pass.1.store.visible name) ↔
      ∀ name args, s.prepare.Leaves name args ↔ t.prepare.Leaves name args := by
  have agrees : t.store.Agrees := h.store ▸ h.agrees
  simp only [← mem_visible_pass h.agrees, ← mem_visible_pass agrees]
  constructor
  · intro he name args
    rw [he]
  · intro hm name
    exact Sorted.eq_of_mem_iff (FactStore.increasing_visible _ _)
      (FactStore.increasing_visible _ _) (hm name)

/-- Where the same facts are visible, the same is found. -/
theorem mem_report_iff (h : s.Rearranged t)
    (hv : ∀ name, s.pass.1.store.visible name = t.pass.1.store.visible name) (v : Violation) :
    v ∈ s.pass.1.report.records ↔ v ∈ t.pass.1.report.records := by
  have agrees : t.store.Agrees := h.store ▸ h.agrees
  have frame : s.prepare.publish.1.frame = t.prepare.publish.1.frame := by
    simp only [frame_publish, frame_prepare, h.frame]
  have same (name : String) : s.prepare.publish.1.store.Same t.prepare.publish.1.store name := by
    rw [← store_pass_eq, ← store_pass_eq]
    exact FactStore.same_of_visible (agrees_pass h.agrees) (agrees_pass agrees) (hv name)
  have judged : s.prepare.publish.1.judgement = t.prepare.publish.1.judgement :=
    judgement_congr frame same
  have ids : ∀ u : Session, (u.objects.map Tracked.id).Nodup →
      (u.prepare.objects.map fun o => some o.id).Nodup := by
    intro u hu
    rw [objects_prepare hu]
    simpa [List.map_map, Function.comp_def, id_readied] using nodup_some hu
  have found : v ∈ distinctBy Violation.key (s.prepare.objects.flatMap
        fun o => (s.prepare.publish.1.judgement o).violations) ↔
      v ∈ distinctBy Violation.key (t.prepare.objects.flatMap
        fun o => (t.prepare.publish.1.judgement o).violations) := by
    rw [← judged]
    exact mem_distinctBy_flatMap_congr (fun _ _ => Violation.object_of_key)
      s.prepare.publish.1.owned_judgement (ids s h.distinct.1) (ids t h.distinct.2)
      h.mem_objects_prepare v
  have has : s.prepare.permanent.has v = t.prepare.permanent.has v := by
    rw [Bool.eq_iff_iff, Report.has_eq_true_iff, Report.has_eq_true_iff]
    simp only [h.mem_permanent_prepare]
  rw [mem_report_pass, mem_report_pass, h.mem_permanent_prepare, found, has]

/-- **The outcomes are the same exactly if the same facts are left.** -/
theorem sameOutcome_iff (h : s.Rearranged t) :
    SameOutcome s.pass.1 t.pass.1 ↔
      ∀ name args, s.prepare.Leaves name args ↔ t.prepare.Leaves name args := by
  rw [← h.visible_eq_iff]
  exact ⟨fun hs => hs.1, fun hv => ⟨hv, h.mem_report_iff hv⟩⟩

/-! ## Guards apart -/

/-- Every query is asked as often, for the same listener. -/
theorem filter_newQueries (h : s.Rearranged t) (p : Query) :
    s.newQueries.filter (fun q => decide (q = p)) =
      t.newQueries.filter (fun q => decide (q = p)) := by
  have owned : Owned (fun o => (s.advanced o).queries) Query.object Tracked.id :=
    s.object_of_mem_advanced
  rw [← filter_filter_key Query.object s.newQueries, ← filter_filter_key Query.object t.newQueries,
    newQueries, newQueries, ← h.advanced,
    filter_flatMap_congr owned h.distinct.1 h.distinct.2 h.objects]

theorem status_prepare (h : s.Rearranged t) :
    s.prepare.registry.status? = t.prepare.registry.status? := by
  obtain ⟨s', hs, hsp⟩ := s.exists_registry_prepare
  obtain ⟨t', ht, htp⟩ := t.exists_registry_prepare
  funext p
  rw [hsp, htp, status?_foldl_ask, status?_foldl_ask, hs, ht, h.filter_newQueries, h.status]

theorem waitingVars_prepare (h : s.Rearranged t) (id x : String) :
    x ∈ s.prepare.waitingVars id ↔ x ∈ t.prepare.waitingVars id := by
  rw [mem_waitingVars_iff (keyed_prepare h.keyed.1), mem_waitingVars_iff (keyed_prepare h.keyed.2),
    h.status_prepare]

theorem yields_prepare (h : s.Rearranged t) (o : Tracked) (d : Trigger) :
    s.prepare.yields (s.prepare.waitingVars o.id) s.prepare.store o d =
      t.prepare.yields (t.prepare.waitingVars o.id) t.prepare.store o d := by
  have hf : s.prepare.frame = t.prepare.frame := by rw [frame_prepare, frame_prepare, h.frame]
  rw [yields_frame hf, store_prepare, store_prepare, h.store, yields, yields,
    t.prepare.fate_waiting (h.waitingVars_prepare o.id)]

/-- **With guards apart, the order has no bearing on the facts that are left.** -/
theorem leaves_iff_of_apart (h : s.Rearranged t) (ha : s.Apart) (name : String) (args : Args) :
    s.prepare.Leaves name args ↔ t.prepare.Leaves name args := by
  have hb : t.Apart := fun o ho o' ho' => ha o ((h.objects o).mpr ho) o' ((h.objects o').mpr ho')
  have published : ∀ f, s.prepare.Publishes f ↔ t.prepare.Publishes f := by
    intro f
    rw [publishes_iff_of_apart ha.prepare, publishes_iff_of_apart hb.prepare]
    simp only [h.mem_objects_prepare, h.yields_prepare]
  unfold Leaves
  simp only [published]
  rw [store_prepare, store_prepare, h.store]

end Rearranged

/-! ## Orders of tracking -/

theorem object?_eq_some_iff {s : Session} (h : (s.objects.map Tracked.id).Nodup) (o : Tracked) :
    s.object? o.id = some o ↔ o ∈ s.objects := by
  have keys : ((s.objects.map fun o => (o.id, o)).map Prod.fst).Nodup := by
    simpa [List.map_map, Function.comp_def] using h
  have found := find?_key_eq_some_iff keys o.id o
  rw [List.find?_map, Option.map_map] at found
  simpa [object?, Function.comp_def] using found

theorem store_start {settings : Settings} {rules : Rulebook} {subtyping : Subtyping} {s : Session}
    (h : start settings rules subtyping = .ok s) : s.store = .empty := by
  rw [eq_of_start h]

/-- Operations on every object in the same order make sessions that are rearranged. -/
theorem rearranged_run {settings : Settings} {rules : Rulebook} {subtyping : Subtyping}
    {s : Session} (h : start settings rules subtyping = .ok s) {ops ops' : List Op}
    (hops : Single ops) (hops' : Single ops') (same : ∀ id, about id ops = about id ops') :
    (s.run ops).Rearranged (s.run ops') := by
  obtain ⟨unasked, hstore, hpermanent⟩ := (unasked_start h).run hops
  obtain ⟨unasked', hstore', hpermanent'⟩ := (unasked_start h).run hops'
  have distinct := ((chronicle_start h).run ops).distinct
  have distinct' := ((chronicle_start h).run ops').distinct
  refine
    { frame := (s.frame_run ops).trans (s.frame_run ops').symm
      objects := fun o => ?_
      distinct := ⟨distinct, distinct'⟩
      inbox := unasked.inbox.trans unasked'.inbox.symm
      status := funext fun q => ?_
      keyed := ⟨unasked.keyed, unasked'.keyed⟩
      store := hstore.trans hstore'.symm
      agrees := ?_
      permanent := hpermanent.trans hpermanent'.symm }
  · rw [← object?_eq_some_iff distinct, ← object?_eq_some_iff distinct', s.object?_run hops,
      s.object?_run hops', same]
  · rw [s.status?_run hops, s.status?_run hops', same]
  · rw [hstore, store_start h]
    exact FactStore.agrees_empty

/-- **What the order of tracking can change.** Take two runs without passes in which the
operations on every single object come in the same order. Before facts are published the
objects are the same. After the pass the same facts are visible and the same records are in
the report exactly if the two publications leave the same facts; and they do if no guard of
an effect looks up what an effect establishes. -/
theorem sameOutcome_of_order {settings : Settings} {rules : Rulebook} {subtyping : Subtyping}
    {s : Session} (h : start settings rules subtyping = .ok s) {ops ops' : List Op}
    (hops : Single ops) (hops' : Single ops') (same : ∀ id, about id ops = about id ops') :
    (∀ o, o ∈ (s.run ops).prepare.objects ↔ o ∈ (s.run ops').prepare.objects) ∧
      (SameOutcome (s.run ops).pass.1 (s.run ops').pass.1 ↔
        ∀ name args, (s.run ops).prepare.Leaves name args ↔ (s.run ops').prepare.Leaves name args) ∧
      ((s.run ops).Apart → SameOutcome (s.run ops).pass.1 (s.run ops').pass.1) := by
  have rearranged := rearranged_run h hops hops' same
  exact ⟨rearranged.mem_objects_prepare, rearranged.sameOutcome_iff,
    fun ha => rearranged.sameOutcome_iff.mpr (rearranged.leaves_iff_of_apart ha)⟩

/-! ## Two orders of a key and its user -/

/-- A code needs some generated key. -/
def codeRule : Rule :=
  { Rule.empty "Mac" with
    automaton :=
      { states := [⟨"new", false⟩, ⟨"ready", true⟩]
        initial := ["new"]
        transitions := [⟨"new", "ready", [.ofParams "Mac.init" []]⟩] }
    constraints := [.atom ⟨"generated", [.wildcard], false⟩] }

def codeSession : Session :=
  { guardedSession with rules := (Rulebook.empty.insert false keyRule).insert false codeRule }

def keyOps : List Op :=
  [.track "k" "k@1" "Key", .observe "k" ⟨"2", ⟨"Key", "generate", []⟩, "Key"⟩]

def codeOps : List Op :=
  [.track "m" "m@1" "Mac", .observe "m" ⟨"1", ⟨"Mac", "init", []⟩, "Mac"⟩]

theorem about_append_comm {id id' : String} {ops ops' : List Op} (hne : id ≠ id')
    (h : ∀ op ∈ ops, op.object? = some id) (h' : ∀ op ∈ ops', op.object? = some id')
    (i : String) : about i (ops ++ ops') = about i (ops' ++ ops) := by
  have alien : ∀ {j : String} {ops : List Op}, (∀ op ∈ ops, op.object? = some j) → j ≠ i →
      about i ops = [] := by
    intro j ops hops hj
    refine List.filter_eq_nil_iff.mpr fun op hop => ?_
    simp [hops op hop, hj]
  have append : ∀ ops ops', about i (ops ++ ops') = about i ops ++ about i ops' :=
    fun _ _ => List.filter_append ..
  rw [append, append]
  by_cases hi : id = i
  · rw [alien h' (hi ▸ hne.symm), List.append_nil, List.nil_append]
  · rw [alien h hi, List.nil_append, List.append_nil]

theorem sameOutcome_of_order_codes :
    start codeSession.settings codeSession.rules codeSession.subtyping = .ok codeSession ∧
      Single (codeOps ++ keyOps) ∧ Single (keyOps ++ codeOps) ∧
      (∀ id, about id (codeOps ++ keyOps) = about id (keyOps ++ codeOps)) ∧
      (codeSession.run (codeOps ++ keyOps)).Apart ∧
      SameOutcome (codeSession.run (codeOps ++ keyOps)).pass.1
        (codeSession.run (keyOps ++ codeOps)).pass.1 := by
  have started : start codeSession.settings codeSession.rules codeSession.subtyping =
      .ok codeSession := rfl
  have single : Single (codeOps ++ keyOps) := by unfold Single; decide
  have single' : Single (keyOps ++ codeOps) := by unfold Single; decide
  have same : ∀ id, about id (codeOps ++ keyOps) = about id (keyOps ++ codeOps) :=
    about_append_comm (by decide : "m" ≠ "k") (by decide) (by decide)
  have apart : (codeSession.run (codeOps ++ keyOps)).Apart := by unfold Apart; decide
  exact ⟨started, single, single', same, apart,
    (sameOutcome_of_order started single single' same).2.2 apart⟩

def desOps : List Op :=
  [.track "c" "c@1" "Cipher", .observe "c" ⟨"1", ⟨"Cipher", "init", ["String"]⟩, "Cipher"⟩,
   .supply ⟨"c", "1", "alg", .argument 0⟩ [⟨.constant (.text "DES"), none⟩]]

/-- A guard that looks up a generated key drops its effect if the key is tracked later. -/
theorem outcome_of_guarded_order :
    start guardedSession.settings guardedSession.rules guardedSession.subtyping =
        .ok guardedSession ∧
      guardedSession.rules.rejected = [] ∧
      Single (desOps ++ keyOps) ∧ Single (keyOps ++ desOps) ∧
      (∀ id, about id (desOps ++ keyOps) = about id (keyOps ++ desOps)) ∧
      ¬SameOutcome (guardedSession.run (desOps ++ keyOps)).pass.1
        (guardedSession.run (keyOps ++ desOps)).pass.1 ∧
      (guardedSession.run (desOps ++ keyOps)).pass.1.store.visible "prepared" = [] ∧
      (guardedSession.run (keyOps ++ desOps)).pass.1.store.visible "prepared" =
        [[.object "c@1"]] ∧
      (guardedSession.run (desOps ++ keyOps)).pass.1.report.records.map Violation.kind =
        [.missingPredicate] ∧
      (guardedSession.run (keyOps ++ desOps)).pass.1.report.records = [] := by
  have cipherFirst :
      (guardedSession.run (desOps ++ keyOps)).pass.1.store.visible "prepared" = [] := by
    decide +kernel
  have keyFirst : (guardedSession.run (keyOps ++ desOps)).pass.1.store.visible "prepared" =
      [[.object "c@1"]] := by decide
  have differ : ¬SameOutcome (guardedSession.run (desOps ++ keyOps)).pass.1
      (guardedSession.run (keyOps ++ desOps)).pass.1 := by
    intro same
    have := same.1 "prepared"
    rw [cipherFirst, keyFirst] at this
    cases this
  refine ⟨rfl, by decide, by unfold Single; decide, by unfold Single; decide, ?_, differ,
    cipherFirst, keyFirst, by decide +kernel, by decide⟩
  exact about_append_comm (by decide : "c" ≠ "k") (by decide) (by decide)

end Misuse.Session
