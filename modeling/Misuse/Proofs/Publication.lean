import Misuse.Proofs.Phases
import Misuse.Proofs.Replay

/-!
# Publication

What publishing the due effects adds to the store. Facts are established in turn, and those
of retractions are withdrawn at the end (`publication_grows`), so a list is visible
afterwards if it was visible or is established, and nothing that is withdrawn covers it
(`mem_visible_publish_iff`). Publication is quiet exactly if no due effect yields facts
against the store as it is at the start (`publication_idle_iff`).
-/

namespace Misuse

/-! ## Facts of one effect -/

theorem Rule.negated_of_mem_factsOf {r : Rule} {view : View} {cap : Nat} {t : Trigger} {f : Fact}
    (h : f ∈ r.factsOf view cap t) :
    ∃ e, r.effects[t.effect]? = some e ∧ f.name = e.predicate.atom.name ∧
      f.negated = e.predicate.atom.negated := by
  unfold factsOf at h
  cases he : r.effects[t.effect]? with
  | none => simp [he] at h
  | some e =>
    simp only [he, List.mem_map] at h
    obtain ⟨args, -, rfl⟩ := h
    exact ⟨e, rfl, rfl, rfl⟩

namespace Session

namespace Publication

/-- `q` has more facts established and more facts to withdraw than `p`. -/
structure Grows (p q : Publication) (established withdrawn : List Fact) : Prop where
  store : q.store = p.store.publishAll established
  published : q.published = p.published + established.length
  retractions : q.retractions = p.retractions ++ withdrawn
  positive : ∀ f ∈ established, f.negated = false
  negative : ∀ f ∈ withdrawn, f.negated = true

theorem grows_of_same {p q : Publication} (hs : q.store = p.store)
    (hp : q.published = p.published) (hr : q.retractions = p.retractions) : Grows p q [] [] :=
  ⟨hs, by simp [hp], by simp [hr], by simp, by simp⟩

theorem Grows.trans {p q r : Publication} {e w e' w' : List Fact} (h : Grows p q e w)
    (h' : Grows q r e' w') : Grows p r (e ++ e') (w ++ w') := by
  refine ⟨?_, ?_, ?_, ?_, ?_⟩
  · rw [h'.store, h.store]
    simp [FactStore.publishAll]
  · rw [h'.published, h.published, List.length_append, Nat.add_assoc]
  · rw [h'.retractions, h.retractions, List.append_assoc]
  · intro f hf
    exact (List.mem_append.mp hf).elim (h.positive f) (h'.positive f)
  · intro f hf
    exact (List.mem_append.mp hf).elim (h.negative f) (h'.negative f)

/-- `q` comes from `p` by some facts; there are none exactly if the step is `idle`. -/
def Brings (p q : Publication) (idle : Prop) : Prop :=
  ∃ e w, Grows p q e w ∧ (e = [] ∧ w = [] ↔ idle)

theorem brings_foldl {α : Type} (step : Publication → α → Publication)
    (idle : FactStore → α → Prop) (h : ∀ p a, Brings p (step p a) (idle p.store a)) (as : List α)
    (p : Publication) : Brings p (as.foldl step p) (∀ a ∈ as, idle p.store a) := by
  induction as generalizing p with
  | nil => exact ⟨[], [], grows_of_same rfl rfl rfl, by simp⟩
  | cons a as ih =>
    obtain ⟨e, w, hg, hidle⟩ := h p a
    obtain ⟨e', w', hg', hidle'⟩ := ih (step p a)
    refine ⟨e ++ e', w ++ w', hg.trans hg', ?_⟩
    rw [List.forall_mem_cons, ← hidle]
    simp only [List.append_eq_nil_iff]
    rw [and_and_and_comm, hidle']
    -- nothing is established by the first step, so the others start from the same store
    refine and_congr_right fun hnil => ?_
    have hstore : (step p a).store = p.store := by
      rw [hg.store, hnil.1]
      rfl
    rw [hstore]

/-- Facts of one sign go one way. -/
theorem grows_add (p : Publication) {facts : List Fact} {negated : Bool}
    (h : ∀ f ∈ facts, f.negated = negated) :
    Grows p (p.add facts) (if negated then [] else facts) (if negated then facts else []) := by
  cases negated with
  | false =>
    have hany : facts.any Fact.negated = false := by
      rw [List.any_eq_false]
      intro f hf
      simp [h f hf]
    unfold add
    rw [hany]
    exact ⟨rfl, rfl, by simp, h, by simp⟩
  | true =>
    cases facts with
    | nil => exact grows_of_same rfl rfl rfl
    | cons f fs =>
      have hany : (f :: fs).any Fact.negated = true := by simp [h f (List.mem_cons_self ..)]
      unfold add
      rw [hany]
      exact ⟨rfl, rfl, rfl, by simp, h⟩

end Publication

open Publication

variable (s : Session)

/-- The facts an effect gives if its turn comes at this store. -/
def yields (waiting : List String) (store : FactStore) (o : Tracked) (t : Trigger) : List Fact :=
  match s.fate waiting store o t with
  | .published facts => facts
  | _ => []

/-- What a due effect yields is what its rule makes of it, or nothing. -/
theorem mem_factsOf_of_mem_yields {s : Session} {waiting : List String} {store : FactStore}
    {o : Tracked} {t : Trigger} {f : Fact} (h : f ∈ s.yields waiting store o t) :
    f ∈ o.rule.factsOf o.view s.settings.constraints.maxCombinations t := by
  unfold yields fate at h
  cases he : o.rule.effects[t.effect]? with
  | none => simp [he] at h
  | some e =>
    simp only [he] at h
    split at h
    · rename_i hfate
      split at hfate
      · cases hfate
      · split at hfate <;> cases hfate
        exact h
    · cases h

/-- The facts of one effect are all established, or all retracted. -/
theorem exists_sign (waiting : List String) (store : FactStore) (o : Tracked) (t : Trigger) :
    ∃ negated, ∀ f ∈ s.yields waiting store o t, f.negated = negated := by
  cases hy : s.yields waiting store o t with
  | nil => exact ⟨false, by simp⟩
  | cons g gs =>
    have gives : ∀ f ∈ g :: gs,
        f ∈ o.rule.factsOf o.view s.settings.constraints.maxCombinations t :=
      fun f hf => mem_factsOf_of_mem_yields (hy ▸ hf)
    obtain ⟨e, he, -, -⟩ := Rule.negated_of_mem_factsOf (gives g (List.mem_cons_self ..))
    refine ⟨e.predicate.atom.negated, fun f hfact => ?_⟩
    obtain ⟨e', he', -, hn⟩ := Rule.negated_of_mem_factsOf (gives f hfact)
    rw [he, Option.some.injEq] at he'
    rw [hn, he']

/-- The turn of one effect brings just the facts it yields. -/
theorem grows_publishDue (waiting : List String) (o : Tracked) (p : Publication) (t : Trigger) :
    ∃ negated, (∀ f ∈ s.yields waiting p.store o t, f.negated = negated) ∧
      Grows p (s.publishDue waiting o p t)
        (if negated then [] else s.yields waiting p.store o t)
        (if negated then s.yields waiting p.store o t else []) := by
  obtain ⟨negated, hneg⟩ := s.exists_sign waiting p.store o t
  refine ⟨negated, hneg, ?_⟩
  cases hf : s.fate waiting p.store o t with
  | dropped =>
    have hy : s.yields waiting p.store o t = [] := by simp [yields, hf]
    rw [hy, ite_self]
    exact grows_of_same (by simp [publishDue, hf]) (by simp [publishDue, hf])
      (by simp [publishDue, hf])
  | deferred =>
    have hy : s.yields waiting p.store o t = [] := by simp [yields, hf]
    rw [hy, ite_self]
    exact grows_of_same (by simp [publishDue, hf]) (by simp [publishDue, hf])
      (by simp [publishDue, hf])
  | published facts =>
    have hy : s.yields waiting p.store o t = facts := by simp [yields, hf]
    rw [hy] at hneg ⊢
    simpa [publishDue, hf] using grows_add p hneg

theorem brings_publishDue (waiting : List String) (o : Tracked) (p : Publication) (t : Trigger) :
    Brings p (s.publishDue waiting o p t) (s.yields waiting p.store o t = []) := by
  obtain ⟨negated, -, hg⟩ := s.grows_publishDue waiting o p t
  refine ⟨_, _, hg, ?_⟩
  cases negated <;> simp

/-! ## All due effects -/

/-- No due effect of the object yields facts against this store. -/
def Idle (store : FactStore) (o : Tracked) : Prop :=
  ∀ t ∈ o.due, s.yields (s.waitingVars o.id) store o t = []

/-- The publication after the effects of one object. -/
def publishOwn (p : Publication) (o : Tracked) : Publication :=
  o.due.foldl (s.publishDue (s.waitingVars o.id) o) { p with kept := [] }

theorem brings_publishOwn (p : Publication) (o : Tracked) :
    Brings p (s.publishOwn p o) (s.Idle p.store o) := by
  obtain ⟨e, w, hg, hidle⟩ :=
    brings_foldl (s.publishDue (s.waitingVars o.id) o)
      (fun store t => s.yields (s.waitingVars o.id) store o t = [])
      (s.brings_publishDue (s.waitingVars o.id) o) o.due { p with kept := [] }
  have h0 : Grows p { p with kept := [] } [] [] := grows_of_same rfl rfl rfl
  exact ⟨e, w, h0.trans hg, hidle⟩

theorem publishObject_eq (done : List Tracked) (p : Publication) (o : Tracked) :
    s.publishObject (done, p) o =
      (done ++ [{ o with due := (s.publishOwn p o).kept }], s.publishOwn p o) := rfl

theorem snd_foldl_publishObject (os done : List Tracked) (p : Publication) :
    (os.foldl s.publishObject (done, p)).2 = os.foldl s.publishOwn p := by
  induction os generalizing done p with
  | nil => rfl
  | cons o os ih => rw [List.foldl_cons, publishObject_eq, ih, List.foldl_cons]

/-- What a pass has published once every object had its turn. -/
def publication : Publication := s.objects.foldl s.publishOwn ⟨s.store, 0, [], []⟩

/-- The facts that a pass establishes, in order. -/
def established : List Fact := s.publication.store.log.drop s.store.log.length

/-- The facts that a pass withdraws. -/
def withdrawn : List Fact := s.publication.retractions

theorem publish_eq :
    s.publish =
      ({ s with
          objects := s.publish.1.objects
          store := s.publication.store.retractAll s.withdrawn },
        s.publication.published, s.withdrawn.length) := by
  unfold withdrawn publication
  rw [← snd_foldl_publishObject s s.objects []]
  rfl

theorem brings_publication :
    Brings ⟨s.store, 0, [], []⟩ s.publication (∀ o ∈ s.objects, s.Idle s.store o) :=
  brings_foldl s.publishOwn s.Idle s.brings_publishOwn s.objects _

/-- The facts of a pass are those that tell its store and retractions from the start. -/
theorem eq_of_grows {s : Session} {e w : List Fact}
    (h : Grows ⟨s.store, 0, [], []⟩ s.publication e w) : s.established = e ∧ s.withdrawn = w := by
  unfold established withdrawn
  rw [h.store, h.retractions, FactStore.log_publishAll, List.drop_left]
  exact ⟨rfl, rfl⟩

/-- **Publication establishes in turn and withdraws at the end.** -/
theorem publication_grows : Grows ⟨s.store, 0, [], []⟩ s.publication s.established s.withdrawn := by
  obtain ⟨e, w, hg, -⟩ := s.brings_publication
  obtain ⟨he, hw⟩ := eq_of_grows hg
  rw [he, hw]
  exact hg

/-- **Nothing is published exactly if no due effect yields facts at the start.** -/
theorem publication_idle_iff :
    s.established = [] ∧ s.withdrawn = [] ↔ ∀ o ∈ s.objects, s.Idle s.store o := by
  obtain ⟨e, w, hg, hidle⟩ := s.brings_publication
  obtain ⟨he, hw⟩ := eq_of_grows hg
  rw [he, hw]
  exact hidle

theorem publish_fst :
    s.publish.1 = { s with
      objects := s.publish.1.objects
      store := (s.store.publishAll s.established).retractAll s.withdrawn } := by
  rw [publish_eq, s.publication_grows.store]

theorem publish_snd : s.publish.2 = (s.established.length, s.withdrawn.length) := by
  rw [publish_eq, s.publication_grows.published, Nat.zero_add]

/-- The numbers of a pass count the facts it establishes and withdraws. -/
theorem counts_pass (s : Session) :
    s.pass.2.factsPublished = s.prepare.established.length ∧
      s.pass.2.retractions = s.prepare.withdrawn.length := by
  have counted : (s.pass.2.factsPublished, s.pass.2.retractions) = s.prepare.publish.2 := by
    simp only [pass, passBy, prepare]
  rw [publish_snd] at counted
  exact Prod.mk.inj counted

/-- **What is visible after publication.** -/
theorem mem_visible_publish_iff {s : Session} (h : s.store.Agrees) (name : String) (args : Args) :
    args ∈ s.publish.1.store.visible name ↔
      (args ∈ s.store.visible name ∨ ∃ f ∈ s.established, f.name = name ∧ f.args = args) ∧
        ∀ f ∈ s.withdrawn, f.name = name → Args.cover f.args args = false := by
  rw [publish_fst]
  exact h.mem_visible_phases s.publication_grows.positive s.withdrawn name args

end Session

/-! ## What publishing and judging leave alone -/

/-- An object without what publishing and judging change of it. -/
def Tracked.settled (o : Tracked) : Tracked := { o with pending := [], due := [] }

namespace Session

theorem settled_foldl_publishObject (s : Session) (os done : List Tracked) (p : Publication) :
    (os.foldl s.publishObject (done, p)).1.map Tracked.settled =
      done.map Tracked.settled ++ os.map Tracked.settled := by
  induction os generalizing done p with
  | nil => simp
  | cons o os ih =>
    rw [List.foldl_cons, publishObject_eq, ih]
    simp [Tracked.settled]

theorem settled_publish (s : Session) :
    s.publish.1.objects.map Tracked.settled = s.objects.map Tracked.settled :=
  settled_foldl_publishObject s s.objects [] ⟨s.store, 0, [], []⟩

theorem settled_judge (s : Session) :
    s.judge.objects.map Tracked.settled = s.objects.map Tracked.settled := by
  simp [judge, Tracked.settled]

/-- Publishing and judging change the objects, the store and the findings only. -/
theorem judge_publish (s : Session) :
    s.publish.1.judge = { s with
      objects := s.publish.1.judge.objects
      store := (s.store.publishAll s.established).retractAll s.withdrawn
      findings := s.publish.1.judge.findings } := by
  generalize hp : s.publish.1 = t
  have ht : t = { s with objects := t.objects, store := t.store } := by
    rw [← hp, publish_fst]
  have hstore : t.store = (s.store.publishAll s.established).retractAll s.withdrawn := by
    rw [← hp, publish_fst]
  rw [← hstore]
  unfold judge
  rw [ht]

/-- What is due or pending has no bearing on a judgement. -/
theorem judgement_settled (s : Session) (o : Tracked) :
    s.judgement o.settled = s.judgement o := rfl

/-- Findings are judged from what publishing leaves alone. -/
theorem judge_findings (s : Session) :
    s.judge.findings = Report.empty.extend
      ((s.objects.map Tracked.settled).flatMap fun o => (s.judgement o).violations) := by
  simp [judge, List.flatMap_map, judgement_settled]

/-- The findings of a pass are judged from the objects and the facts it leaves. -/
theorem findings_pass (s : Session) :
    s.pass.1.findings = Report.empty.extend
      (s.pass.1.objects.flatMap fun o => (s.pass.1.judgement o).violations) := by
  rw [pass_fst]
  -- judging reads no more of an object than it leaves, whatever was published
  generalize s.prepare.publish.1 = t
  simp only [judge, List.flatMap_map]
  rfl

end Session

end Misuse
