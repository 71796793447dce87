import Misuse.Proofs.Failures
import Misuse.Proofs.Finality
import Misuse.Proofs.Order
import Misuse.Proofs.Sites

/-!
# Passes and the order of bindings

Two sessions may come to publish with the same objects, their bindings in another order
(`Shuffled`). They publish the same facts (`Shuffled.store_pass`). So their reports have the
same records but for the sites (`Concordant.alike_pass`). The reports are the same if every
constraint reads its bindings in the same order (`Concordant.report_pass`).
-/

namespace Misuse

/-- The same object with its bindings in another order. -/
structure Tracked.Shuffled (o o' : Tracked) : Prop where
  unbound : o.unbound = o'.unbound
  bindings : o.bindings.Perm o'.bindings

namespace Tracked.Shuffled

variable {o o' : Tracked} (h : o.Shuffled o')
include h

theorem symm : o'.Shuffled o := ⟨h.unbound.symm, h.bindings.symm⟩

theorem rule : o.rule = o'.rule := congrArg (fun o => o.rule) h.unbound

theorem view : o.view.Shuffled o'.view where
  object := congrArg (fun o => o.id) h.unbound
  self := congrArg (fun o => o.self) h.unbound
  calls := congrArg (fun o => o.calls) h.unbound
  bindings := h.bindings

end Tracked.Shuffled

/-- Every constraint of the object reads its bindings in the same order. -/
def Tracked.SameReads (o o' : Tracked) : Prop :=
  ∀ c ∈ o.rule.constraints, o.view.narrow c.reads = o'.view.narrow c.reads

/-- It does so if the bindings that it reads are in the same order. -/
theorem Tracked.Shuffled.sameReads {o o' : Tracked} (h : o.Shuffled o')
    (reads : ∀ c ∈ o.rule.constraints, o.bindings.filter (fun b => c.reads.contains b.var) =
      o'.bindings.filter fun b => c.reads.contains b.var) : o.SameReads o' := by
  intro c hc
  simp only [View.narrow, View.mk.injEq]
  exact ⟨h.view.object, h.view.self, reads c hc, h.view.calls⟩

/-- Every record of either report has one in the other that is the same but for its sites. -/
def Report.Alike (r r' : Report) : Prop :=
  (∀ v ∈ r.records, ∃ w ∈ r'.records, v.Alike w) ∧
    ∀ w ∈ r'.records, ∃ v ∈ r.records, v.Alike w

theorem Violation.Finding.isFailure {v : Violation} (h : v.Finding)
    (hk : v.kind ≠ .impreciseValue) : v.isFailure = true := by
  cases h with
  | constraint => rfl
  | missingPredicate => rfl
  | impreciseValue => exact absurd rfl hk

namespace Session

theorem Unfailed.prepare {s : Session} (h : s.Unfailed) : s.prepare.Unfailed := by
  rw [Unfailed, ← permanent_pass_prepare]
  exact h.pass

/-- Two sessions whose objects differ in the order of their bindings only. -/
structure Shuffled (s t : Session) : Prop where
  frame : s.frame = t.frame
  objects : List.Forall₂ Tracked.Shuffled s.objects t.objects
  waiting : ∀ id x, x ∈ s.waitingVars id ↔ x ∈ t.waitingVars id
  store : s.store = t.store
  permanent : s.permanent = t.permanent

variable {s t : Session}

/-! ## Publication -/

section Objects

variable (hf : s.frame = t.frame) {o o' : Tracked} (ho : o.Shuffled o')
include hf ho

theorem context_shuffled (store : FactStore) :
    (s.context store o).Shuffled (t.context store o') := by
  obtain ⟨settings, -, subtyping⟩ := frame_eq_iff.mp hf
  refine ⟨ho.view, fun p => Verdict.shuffled_of_eq ?_, subtyping, ?_⟩
  · simp only [context, ConstraintSettings.context, settings]
    exact FactStore.lookup_shuffled ho.view _ _ p
  · exact congrArg (fun c : Settings => c.constraints.maxCombinations) settings

/-- The order of the bindings has no bearing on what becomes of an effect. -/
theorem fate_shuffled {waiting waiting' : List String} (hw : ∀ x, x ∈ waiting ↔ x ∈ waiting')
    (store : FactStore) (d : Trigger) :
    s.fate waiting store o d = t.fate waiting' store o' d := by
  rw [s.fate_waiting hw]
  unfold fate
  rw [← ho.rule]
  cases o.rule.effects[d.effect]? with
  | none => rfl
  | some e =>
    have truth : guardTruth (s.context store o) e.predicate =
        guardTruth (t.context store o') e.predicate := by
      unfold guardTruth
      cases e.predicate.guard with
      | none => rfl
      | some g => exact g.truth_evaluate_shuffled (context_shuffled hf ho store)
    have settings : s.settings = t.settings := congrArg (fun f => f.1) hf
    simp only [truth, settings, o.rule.factsOf_shuffled ho.view]

end Objects

theorem store_publish_eq (s : Session) :
    s.publish.1.store = s.publication.store.retractAll s.publication.retractions := by
  rw [publish_eq]
  rfl

namespace Shuffled

theorem publishOwn_eq (h : s.Shuffled t) {o o' : Tracked} (ho : o.Shuffled o') (p : Publication) :
    s.publishOwn p o = t.publishOwn p o' := by
  have id : o.id = o'.id := ho.view.object
  have due : o.due = o'.due := congrArg (fun o => o.due) ho.unbound
  have turn : s.publishDue (s.waitingVars o.id) o = t.publishDue (t.waitingVars o'.id) o' := by
    funext p d
    rw [publishDue, publishDue, ← id, fate_shuffled h.frame ho (h.waiting o.id)]
  rw [publishOwn, publishOwn, turn, due]

theorem publication_eq (h : s.Shuffled t) : s.publication = t.publication := by
  have turns : ∀ {os os' : List Tracked}, List.Forall₂ Tracked.Shuffled os os' →
      ∀ p, os.foldl s.publishOwn p = os'.foldl t.publishOwn p := by
    intro os os' hos
    induction hos with
    | nil => exact fun _ => rfl
    | cons ho _ ih =>
      intro p
      rw [List.foldl_cons, List.foldl_cons, h.publishOwn_eq ho, ih]
  rw [publication, publication, h.store, turns h.objects]

/-- **The order of the bindings has no bearing on what is published.** -/
theorem store_publish (h : s.Shuffled t) : s.publish.1.store = t.publish.1.store := by
  rw [store_publish_eq, store_publish_eq, h.publication_eq]

end Shuffled

/-! ## Reports -/

/-- Two sessions that publish the same, and whose objects differ in the order of their bindings
only. -/
structure Concordant (s t : Session) : Prop where
  frame : s.frame = t.frame
  objects : List.Forall₂ Tracked.Shuffled s.objects t.objects
  permanent : s.permanent = t.permanent
  published : s.publish.1.store = t.publish.1.store

theorem Shuffled.concordant (h : s.Shuffled t) : s.Concordant t :=
  ⟨h.frame, h.objects, h.permanent, h.store_publish⟩

namespace Concordant

theorem symm (h : s.Concordant t) : t.Concordant s where
  frame := h.frame.symm
  objects := h.objects.flip.imp fun _ _ => Tracked.Shuffled.symm
  permanent := h.permanent.symm
  published := h.published.symm

theorem frame_publish (h : s.Concordant t) : s.publish.1.frame = t.publish.1.frame := by
  rw [Session.frame_publish, Session.frame_publish, h.frame]

theorem judgement_alike (hf : s.frame = t.frame) (hs : s.store = t.store) {o o' : Tracked}
    (ho : o.Shuffled o') :
    List.Forall₂ Violation.Alike (s.judgement o).violations (t.judgement o').violations := by
  have settings : s.settings = t.settings := congrArg (fun f => f.1) hf
  rw [judgement, judgement, ← ho.rule, settings, hs]
  exact o.rule.judge_alike (context_shuffled hf ho t.store) _

theorem store_pass (h : s.prepare.Concordant t.prepare) : s.pass.1.store = t.pass.1.store := by
  rw [store_pass_eq, store_pass_eq]
  exact h.published

theorem exists_alike (h : s.prepare.Concordant t.prepare) (unfailed : s.prepare.Unfailed) :
    ∀ v ∈ s.pass.1.report.records, ∃ w ∈ t.pass.1.report.records, v.Alike w := by
  intro v hv
  have findings := List.rel_flatMap h.objects fun _ _ ho =>
    judgement_alike h.frame_publish h.published ho
  rcases (s.mem_report_pass v).mp hv with hv | ⟨hv, fresh⟩
  · exact ⟨v, (t.mem_report_pass v).mpr (.inl (h.permanent ▸ hv)), v.alike_self⟩
  · have made : ∀ w ∈ t.prepare.objects.flatMap
        (fun o => (t.prepare.publish.1.judgement o).violations), w.Finding := by
      intro w hw
      obtain ⟨o, -, hw⟩ := List.mem_flatMap.mp hw
      exact Rule.finding_of_mem_judge hw
    obtain ⟨w, hw, alike⟩ := Violation.exists_alike_of_mem_distinctBy findings made hv
    refine ⟨w, (t.mem_report_pass w).mpr (.inr ⟨hw, ?_⟩), alike⟩
    rw [← h.permanent]
    by_cases hk : v.kind = .impreciseValue
    · rwa [← Report.has_congr _ (alike.key_eq hk)]
    · -- a failure repeats nothing permanent, whatever its sites
      have failure : w.isFailure = true :=
        (made w ((distinctBy_sublist _ _).subset hw)).isFailure (alike.kind ▸ hk)
      rw [Bool.eq_false_iff, ne_eq, Report.has_eq_true_iff]
      rintro ⟨x, hx, hkey⟩
      rw [← Violation.isFailure_of_key hkey, unfailed x hx] at failure
      cases failure

/-- **The order of the bindings has no bearing on a report, but for the sites.** -/
theorem alike_pass (h : s.prepare.Concordant t.prepare) (unfailed : s.prepare.Unfailed) :
    s.pass.1.report.Alike t.pass.1.report := by
  have unfailed' : t.prepare.Unfailed := fun v hv => unfailed v (h.permanent ▸ hv)
  refine ⟨h.exists_alike unfailed, fun w hw => ?_⟩
  obtain ⟨v, hv, alike⟩ := h.symm.exists_alike unfailed' w hw
  exact ⟨v, hv, alike.symm⟩

/-- **A report is the same if every constraint reads its bindings in the same order.** -/
theorem report_pass (h : s.prepare.Concordant t.prepare)
    (reads : ∀ o ∈ s.prepare.objects, ∀ o' ∈ t.prepare.objects, o.unbound = o'.unbound →
      o.SameReads o') : s.pass.1.report = t.pass.1.report := by
  have same : List.Forall₂ Eq (s.prepare.objects.map Tracked.unbound)
      (t.prepare.objects.map Tracked.unbound) := by
    rw [List.forall₂_map_left_iff, List.forall₂_map_right_iff]
    exact h.objects.imp fun _ _ ho => ho.unbound
  rw [List.forall₂_eq_eq_eq] at same
  have found : s.pass.1.findings = t.pass.1.findings := by
    rw [findings_pass_prepare, findings_pass_prepare]
    refine congrArg Report.empty.extend (flatMap_congr_of_map same fun o ho o' ho' unbound => ?_)
    have rule : o'.rule = o.rule := (congrArg (fun o => o.rule) unbound).symm
    rw [judgement_congr_reads h.frame_publish h.published rule]
    exact fun c hc => reads o ho o' ho' unbound c (rule ▸ hc)
  rw [report, report, permanent_pass_prepare, permanent_pass_prepare, h.permanent, found]

end Concordant

namespace Shuffled

theorem store_pass (h : s.prepare.Shuffled t.prepare) : s.pass.1.store = t.pass.1.store :=
  h.concordant.store_pass

theorem alike_pass (h : s.prepare.Shuffled t.prepare) (unfailed : s.prepare.Unfailed) :
    s.pass.1.report.Alike t.pass.1.report := h.concordant.alike_pass unfailed

theorem report_pass (h : s.prepare.Shuffled t.prepare)
    (reads : ∀ o ∈ s.prepare.objects, ∀ o' ∈ t.prepare.objects, o.unbound = o'.unbound →
      o.SameReads o') : s.pass.1.report = t.pass.1.report := h.concordant.report_pass reads

end Shuffled

end Session

end Misuse
