import Misuse.Proofs.Lookups
import Misuse.Proofs.Turns

/-!
# Guards apart from what is established

The fate of a due effect is decided at its turn, when effects before it have published
already. If no guard looks up a name that effects establish, every turn is as good as the
first one: a pass publishes just what the due effects yield against the store as it is at
the start (`publishes_iff_of_apart`), and keeps just what is held back there
(`objects_publish`).
-/

namespace Misuse.Session

open Publication

/-- No guard of a tracked object looks up a name that a tracked object establishes. -/
def Apart (s : Session) : Prop :=
  ∀ o ∈ s.objects, ∀ o' ∈ s.objects, ∀ name ∈ o.rule.guardNames,
    name ∉ o'.rule.establishedNames

/-- No guard of a tracked object looks up a name that a tracked object establishes or
retracts. -/
def Isolated (s : Session) : Prop :=
  ∀ o ∈ s.objects, ∀ o' ∈ s.objects, ∀ name ∈ o.rule.guardNames, name ∉ o'.rule.effectNames

theorem Isolated.apart {s : Session} (h : s.Isolated) : s.Apart :=
  fun o ho o' ho' name hn he => h o ho o' ho' name hn (o'.rule.establishedNames_subset name he)

variable {s : Session}

/-- The store answers what the guards ask as at the start of publication. -/
def Steady (s : Session) (store : FactStore) : Prop :=
  ∀ o ∈ s.objects, ∀ name ∈ o.rule.guardNames, store.Same s.store name

theorem steady_self (s : Session) : s.Steady s.store := fun _ _ _ _ _ => rfl

theorem steady_publishAll (h : s.Apart) {store : FactStore} (hst : s.Steady store) {o : Tracked}
    (ho : o ∈ s.objects) {fs : List Fact} (hfs : ∀ f ∈ fs, f.name ∈ o.rule.establishedNames) :
    s.Steady (store.publishAll fs) := by
  intro o' ho' name hn args
  have other : ∀ f ∈ fs, f.name ≠ name := by
    rintro f hf rfl
    exact h o' ho' o ho f.name hn (hfs f hf)
  rw [FactStore.query_publishAll_of_ne other args]
  exact hst o' ho' name hn args

theorem steady_foldl {α : Type} {step : Publication → α → Publication} {as : List α}
    (h : ∀ a ∈ as, ∀ p, s.Steady p.store → s.Steady (step p a).store) (p : Publication)
    (hp : s.Steady p.store) : s.Steady (as.foldl step p).store := by
  induction as generalizing p with
  | nil => exact hp
  | cons a as ih =>
    exact ih (fun b hb => h b (List.mem_cons_of_mem a hb)) _ (h a (List.mem_cons_self ..) p hp)

/-- The turn of an effect disturbs no guard. -/
theorem steady_publishDue (h : s.Apart) {o : Tracked} (ho : o ∈ s.objects) (t : Trigger)
    (p : Publication) (hp : s.Steady p.store) :
    s.Steady (s.publishDue (s.waitingVars o.id) o p t).store := by
  obtain ⟨negated, -, hg⟩ := s.grows_publishDue (s.waitingVars o.id) o p t
  rw [hg.store]
  refine steady_publishAll h hp ho fun f hf => ?_
  have yielded : f ∈ s.yields (s.waitingVars o.id) p.store o t := by
    cases negated
    · exact hf
    · cases hf
  exact Rule.name_mem_establishedNames (mem_factsOf_of_mem_yields yielded) (hg.positive f hf)

theorem steady_publishOwn (h : s.Apart) {o : Tracked} (ho : o ∈ s.objects) (p : Publication)
    (hp : s.Steady p.store) : s.Steady (s.publishOwn p o).store :=
  steady_foldl (fun t _ p hp => steady_publishDue h ho t p hp) { p with kept := [] } hp

theorem steady_storeAt (h : s.Apart) {before : List Tracked} {o : Tracked}
    (hb : ∀ a ∈ before, a ∈ s.objects) (ho : o ∈ s.objects) (done : List Trigger) :
    s.Steady (s.storeAt before o done) := by
  refine steady_foldl (fun t _ p hp => steady_publishDue h ho t p hp) _ ?_
  exact steady_foldl (fun a ha p hp => steady_publishOwn h (hb a ha) p hp)
    ⟨s.store, 0, [], []⟩ s.steady_self

/-- **With guards apart, a pass publishes what is yielded at the start.** -/
theorem publishes_iff_of_apart (h : s.Apart) (f : Fact) :
    s.Publishes f ↔
      ∃ o ∈ s.objects, ∃ t ∈ o.due, f ∈ s.yields (s.waitingVars o.id) s.store o t := by
  have same : ∀ {before o after done t}, s.objects = before ++ o :: after →
      s.yields (s.waitingVars o.id) (s.storeAt before o done) o t =
        s.yields (s.waitingVars o.id) s.store o t := by
    intro before o after done t hos
    have ho : o ∈ s.objects := by simp [hos]
    have hb : ∀ a ∈ before, a ∈ s.objects := fun a ha => by simp [hos, ha]
    exact s.yields_congr (steady_storeAt h hb ho done o ho) _ t
  constructor
  · rintro ⟨before, o, after, hos, done, t, rest, hdue, hf⟩
    rw [same hos] at hf
    exact ⟨o, by simp [hos], t, by simp [hdue], hf⟩
  · rintro ⟨o, ho, t, ht, hf⟩
    obtain ⟨before, after, hos⟩ := List.append_of_mem ho
    obtain ⟨done, rest, hdue⟩ := List.append_of_mem ht
    refine ⟨before, o, after, hos, done, t, rest, hdue, ?_⟩
    rw [same hos]
    exact hf

/-- Preparation changes no rule. -/
theorem exists_of_mem_prepare {o : Tracked} (ho : o ∈ s.prepare.objects) :
    ∃ a ∈ s.objects, o.rule = a.rule := by
  rw [prepare_eq] at ho
  obtain ⟨a, ha, rfl⟩ := List.mem_map.mp ho
  exact ⟨a, ha, by simp [advanced, Tracked.applyQueued_eq]⟩

theorem Apart.prepare (h : s.Apart) : s.prepare.Apart := by
  intro o ho o' ho'
  obtain ⟨a, ha, hr⟩ := exists_of_mem_prepare ho
  obtain ⟨a', ha', hr'⟩ := exists_of_mem_prepare ho'
  rw [hr, hr']
  exact h a ha a' ha'

theorem Isolated.prepare (h : s.Isolated) : s.prepare.Isolated := by
  intro o ho o' ho'
  obtain ⟨a, ha, hr⟩ := exists_of_mem_prepare ho
  obtain ⟨a', ha', hr'⟩ := exists_of_mem_prepare ho'
  rw [hr, hr']
  exact h a ha a' ha'

/-! ## What is held back -/

/-- The effects of an object that are held back at this store. -/
def heldBack (s : Session) (store : FactStore) (o : Tracked) : List Trigger :=
  o.due.filter fun t => decide (s.fate (s.waitingVars o.id) store o t = .deferred)

theorem kept_publishDue (waiting : List String) (o : Tracked) (p : Publication) (t : Trigger) :
    (s.publishDue waiting o p t).kept =
      p.kept ++ if s.fate waiting p.store o t = .deferred then [t] else [] := by
  cases hf : s.fate waiting p.store o t with
  | dropped => simp [publishDue, hf]
  | deferred => simp [publishDue, hf]
  | published facts =>
    simp only [publishDue, hf, add]
    split <;> simp

theorem kept_publishOwn (h : s.Apart) {o : Tracked} (ho : o ∈ s.objects) (p : Publication)
    (hp : s.Steady p.store) : (s.publishOwn p o).kept = s.heldBack s.store o := by
  have kept : ∀ (ts : List Trigger) (p : Publication), s.Steady p.store →
      (ts.foldl (s.publishDue (s.waitingVars o.id) o) p).kept =
        p.kept ++ ts.filter fun t =>
          decide (s.fate (s.waitingVars o.id) s.store o t = .deferred) := by
    intro ts
    induction ts with
    | nil => simp
    | cons t ts ih =>
      intro p hp
      rw [List.foldl_cons, ih _ (steady_publishDue h ho t p hp), kept_publishDue,
        s.fate_congr (hp o ho), List.append_assoc, List.filter_cons]
      by_cases hf : s.fate (s.waitingVars o.id) s.store o t = .deferred <;> simp [hf]
  exact kept o.due { p with kept := [] } hp

/-- **With guards apart, a pass keeps what is held back at the start.** -/
theorem objects_publish (h : s.Apart) :
    s.publish.1.objects = s.objects.map fun o => { o with due := s.heldBack s.store o } := by
  have objects : ∀ (os done : List Tracked) (p : Publication), (∀ o ∈ os, o ∈ s.objects) →
      s.Steady p.store → (os.foldl s.publishObject (done, p)).1 =
        done ++ os.map fun o => { o with due := s.heldBack s.store o } := by
    intro os
    induction os with
    | nil => simp
    | cons o os ih =>
      intro done p hos hp
      have ho := hos o (List.mem_cons_self ..)
      rw [List.foldl_cons, publishObject_eq, kept_publishOwn h ho p hp,
        ih _ _ (fun o ho => hos o (List.mem_cons_of_mem _ ho)) (steady_publishOwn h ho p hp)]
      simp
  exact objects s.objects [] ⟨s.store, 0, [], []⟩ (fun _ ho => ho) s.steady_self

/-- Publication leaves what the guards look up as it is. -/
theorem Isolated.same_publish (h : s.Isolated) {o : Tracked} (ho : o ∈ s.objects) :
    ∀ name ∈ o.rule.guardNames, s.publish.1.store.Same s.store name := by
  intro name hn args
  have other : ∀ f, f ∈ s.established ∨ f ∈ s.withdrawn → f.name ≠ name := by
    rintro f hf rfl
    obtain ⟨before, o', after, hos, done, t, rest, -, hf⟩ := (s.publishes_iff f).mp hf
    have ho' : o' ∈ s.objects := by simp [hos]
    exact h o ho o' ho' f.name hn (Rule.name_mem_effectNames (mem_factsOf_of_mem_yields hf))
  have negated : ∀ f ∈ s.withdrawn.map fun f => { f with negated := true }, f.name ≠ name := by
    intro f hf
    obtain ⟨g, hg, rfl⟩ := List.mem_map.mp hf
    exact other g (.inr hg)
  rw [publish_fst, FactStore.retractAll, FactStore.query_publishAll_of_ne negated,
    FactStore.query_publishAll_of_ne fun f hf => other f (.inl hf)]

end Misuse.Session
