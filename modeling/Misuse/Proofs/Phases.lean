import Misuse.Session.Pass
import Misuse.Proofs.Queries
import Misuse.Proofs.Trace

/-!
# The phases of a pass

What each phase of a pass does to a session, as an equation. Until facts are published the
objects of a session do not meet: `prepare` takes in bindings, applies calls and asks
queries, and treats every object by itself (`objects_prepare`).
-/

namespace Misuse

/-! ## Receiving bindings -/

namespace Tracked

/-- Take in the deliveries that are meant for this object. -/
def receive (ds : List (Delivery String)) (o : Tracked) : Tracked :=
  ds.foldl (fun o d => if o.id == d.target then o.bind d.binding else o) o

theorem bind_eq (o : Tracked) (b : Binding) :
    o.bind b = { o with bindings := (o.bind b).bindings } := by
  unfold bind
  split <;> rfl

theorem receive_cons (d : Delivery String) (ds : List (Delivery String)) (o : Tracked) :
    o.receive (d :: ds) = receive ds (if o.id == d.target then o.bind d.binding else o) := rfl

/-- Receiving changes nothing but the bindings. -/
theorem receive_eq (ds : List (Delivery String)) (o : Tracked) :
    o.receive ds = { o with bindings := (o.receive ds).bindings } := by
  induction ds generalizing o with
  | nil => rfl
  | cons d ds ih =>
    rw [receive_cons]
    split
    · rw [ih, bind_eq]
    · exact ih o

variable (ds : List (Delivery String)) (o : Tracked)

@[simp] theorem id_receive : (o.receive ds).id = o.id := by rw [receive_eq]
@[simp] theorem rule_receive : (o.receive ds).rule = o.rule := by rw [receive_eq]
@[simp] theorem states_receive : (o.receive ds).states = o.states := by rw [receive_eq]
@[simp] theorem calls_receive : (o.receive ds).calls = o.calls := by rw [receive_eq]
@[simp] theorem queued_receive : (o.receive ds).queued = o.queued := by rw [receive_eq]

/-- Deliveries to other objects pass by. -/
theorem receive_filter :
    o.receive (ds.filter fun d => decide (d.target = o.id)) = o.receive ds := by
  induction ds generalizing o with
  | nil => rfl
  | cons d ds ih =>
    by_cases h : d.target = o.id
    · have hb : (o.bind d.binding).id = o.id := by rw [bind_eq]
      have := ih (o.bind d.binding)
      rw [hb] at this
      simpa [List.filter_cons, h, receive_cons] using this
    · have hne : (o.id == d.target) = false := beq_eq_false_iff_ne.mpr (Ne.symm h)
      simpa [List.filter_cons, h, receive_cons, hne] using ih o

end Tracked

namespace Session

/-- Nothing changes if the object of an id is left as it is. -/
theorem update_of_fixed {s : Session} {id : String} {f : Tracked → Tracked}
    (h : ∀ o ∈ s.objects, o.id = id → f o = o) : s.update id f = s := by
  have same : ∀ o ∈ s.objects, (if o.id == id then f o else o) = o := by
    intro o ho
    split
    · rename_i hid
      exact h o ho (beq_iff_eq.mp hid)
    · rfl
  unfold update
  rw [List.map_congr_left same, List.map_id']

theorem update_eq_self {s : Session} {id : String} (h : s.object? id = none) (f : Tracked → Tracked) :
    s.update id f = s :=
  update_of_fixed fun o ho hid => absurd (beq_iff_eq.mpr hid) (List.find?_eq_none.mp h o ho)

/-- An object that is not tracked loses its binding. -/
theorem fst_deliver (s : Session) (n : Nat) (d : Delivery String) :
    (deliver (s, n) d).1 = s.update d.target fun o => o.bind d.binding := by
  cases h : s.object? d.target with
  | none => simp [deliver, bind, h, update_eq_self h]
  | some o => simp [deliver, bind, h]

theorem fst_foldl_deliver (ds : List (Delivery String)) (s : Session) (n : Nat) :
    (ds.foldl deliver (s, n)).1 = { s with objects := s.objects.map (Tracked.receive ds) } := by
  induction ds generalizing s n with
  | nil =>
    change s = { s with objects := s.objects.map fun o => o }
    rw [List.map_id']
  | cons d ds ih =>
    rw [List.foldl_cons, ← Prod.eta (deliver (s, n) d), ih, fst_deliver]
    simp [update, List.map_map, Function.comp_def, Tracked.receive_cons]

theorem drain_fst (s : Session) :
    s.drain.1 = { s with inbox := [], objects := s.objects.map (Tracked.receive s.inbox) } :=
  fst_foldl_deliver s.inbox { s with inbox := [] } 0

/-! ## Asking queries -/

theorem ask_eq (s : Session) (q : Query) :
    s.ask q = { s with
      registry := ((s.registry.request q).1.listen q q.object).1
      inbox := s.inbox ++ s.registry.answersTo q } := by
  simp [ask, ← Registry.snd_listen_request]

theorem status?_ask (s : Session) (q p : Query) :
    (s.ask q).registry.status? p =
      if q = p then some (Registry.askedStatus q.object (s.registry.status? q))
      else s.registry.status? p := by
  rw [ask_eq]
  exact Registry.status?_listen_request s.registry q p

/-- An answer is known before and after a query is asked, or neither. -/
theorem answersTo_ask (s : Session) (q : Query) :
    (s.ask q).registry.answersTo = s.registry.answersTo := by
  funext p
  unfold Registry.answersTo
  rw [status?_ask]
  by_cases h : q = p
  · subst h
    rw [if_pos rfl]
    cases hs : s.registry.status? q with
    | none => rfl
    | some st => cases st <;> rfl
  · rw [if_neg h]

theorem fst_foldl_askCounting (qs : List Query) (s : Session) (n : Nat) :
    (qs.foldl askCounting (s, n)).1 = qs.foldl ask s := by
  induction qs generalizing s n with
  | nil => rfl
  | cons q qs ih => exact ih ..

/-- Asking queries changes the registry, and delivers the answers that are known. -/
theorem askAll_fst (s : Session) (qs : List Query) :
    (s.askAll qs).1 = { s with
      registry := (qs.foldl ask s).registry
      inbox := s.inbox ++ qs.flatMap s.registry.answersTo } := by
  unfold askAll
  rw [fst_foldl_askCounting]
  induction qs generalizing s with
  | nil => simp
  | cons q qs ih =>
    rw [List.foldl_cons, ih, answersTo_ask]
    simp [ask_eq]

/-- Only the askings of a query itself bear on what is known of it. -/
theorem status?_foldl_ask (s : Session) (qs : List Query) (p : Query) :
    (qs.foldl ask s).registry.status? p =
      (qs.filter fun q => decide (q = p)).foldl
        (fun st q => some (Registry.askedStatus q.object st)) (s.registry.status? p) := by
  induction qs generalizing s with
  | nil => rfl
  | cons q qs ih =>
    rw [List.foldl_cons, ih, status?_ask]
    by_cases h : q = p
    · subst h
      simp
    · simp [h]

theorem keyed_foldl_ask {s : Session} (h : s.registry.Keyed) (qs : List Query) :
    (qs.foldl ask s).registry.Keyed := by
  induction qs generalizing s with
  | nil => exact h
  | cons q qs ih =>
    refine ih ?_
    rw [ask_eq]
    exact (h.request q).listen q q.object

theorem mem_waitingVars_iff {s : Session} (h : s.registry.Keyed) (id x : String) :
    x ∈ s.waitingVars id ↔
      ∃ q, (∃ ls, s.registry.status? q = some (.waiting ls)) ∧ q.object = id ∧ q.var = x := by
  simp only [waitingVars, List.mem_map, List.mem_filter, beq_iff_eq, Registry.mem_pending_iff h,
    and_assoc]

/-! ## Up to publication -/

/-- A session that has taken in bindings, applied its calls and asked its queries. -/
def prepare (s : Session) : Session :=
  let (s, queries) := ({ s with passes := s.passes + 1 }.drain.1).applyCalls
  (s.askAll queries).1.drain.1

theorem pass_fst (s : Session) : s.pass.1 = s.prepare.publish.1.judge := by
  simp only [pass, passBy, prepare]

/-- Judging adds no facts. -/
theorem store_pass_eq (s : Session) : s.pass.1.store = s.prepare.publish.1.store := by
  rw [pass_fst, judge]

/-- The calls of one object, applied after the bindings that wait for it. -/
def advanced (s : Session) (o : Tracked) : Tracked.Progress :=
  (o.receive s.inbox).applyQueued s.matcher

/-- One object at the end of the preparation: with the answers to its own queries. -/
def readied (s : Session) (o : Tracked) : Tracked :=
  (s.advanced o).object.receive ((s.advanced o).queries.flatMap s.registry.answersTo)

/-- The queries that are asked in a pass, object by object. -/
def newQueries (s : Session) : List Query := s.objects.flatMap fun o => (s.advanced o).queries

theorem prepare_eq (s : Session) :
    s.prepare = { s with
      passes := s.passes + 1
      objects := s.objects.map fun o =>
        (s.advanced o).object.receive (s.newQueries.flatMap s.registry.answersTo)
      permanent := s.permanent.extend (s.objects.flatMap fun o => (s.advanced o).violations)
      registry := s.prepare.registry
      inbox := [] } := by
  simp only [prepare, drain_fst, applyCalls, askAll_fst, List.map_map, List.flatMap_map,
    List.nil_append]
  rfl

theorem permanent_prepare (s : Session) :
    s.prepare.permanent =
      s.permanent.extend (s.objects.flatMap fun o => (s.advanced o).violations) := by
  rw [prepare_eq]

theorem store_prepare (s : Session) : s.prepare.store = s.store := by rw [prepare_eq]

/-- Queries are all that changes the registry on the way. -/
theorem exists_registry_prepare (s : Session) :
    ∃ t : Session, t.registry = s.registry ∧
      s.prepare.registry = (s.newQueries.foldl ask t).registry := by
  refine ⟨({ s with passes := s.passes + 1 }.drain.1).applyCalls.1, ?_, ?_⟩
  · rw [drain_fst]
    rfl
  · simp only [prepare, drain_fst, askAll_fst]
    simp only [applyCalls, newQueries, advanced, List.map_map, List.flatMap_map]
    rfl

theorem keyed_prepare {s : Session} (h : s.registry.Keyed) : s.prepare.registry.Keyed := by
  obtain ⟨t, ht, hp⟩ := s.exists_registry_prepare
  rw [hp]
  exact keyed_foldl_ask (ht ▸ h) _

theorem id_advanced (s : Session) (o : Tracked) : (s.advanced o).object.id = o.id := by
  simp [advanced, Tracked.applyQueued_eq]

theorem id_readied (s : Session) (o : Tracked) : (s.readied o).id = o.id := by
  rw [readied, Tracked.id_receive, id_advanced]

theorem rule_readied (s : Session) (o : Tracked) : (s.readied o).rule = o.rule := by
  simp [readied, advanced, Tracked.applyQueued_eq]

theorem object_of_mem_advanced (s : Session) (o : Tracked) :
    ∀ q ∈ (s.advanced o).queries, q.object = o.id := by
  intro q hq
  have := Tracked.object_of_mem_queries hq
  rwa [Tracked.id_receive] at this

theorem target_of_mem_answersTo {r : Registry String} {q : Query} {d : Delivery String}
    (h : d ∈ r.answersTo q) : d.target = q.object := by
  unfold Registry.answersTo at h
  split at h
  · rw [List.mem_singleton.mp h]
  · cases h

theorem owned_answers (s : Session) :
    Owned (fun o => (s.advanced o).queries.flatMap s.registry.answersTo) Delivery.target
      Tracked.id := by
  intro o d hd
  obtain ⟨q, hq, hd⟩ := List.mem_flatMap.mp hd
  rw [target_of_mem_answersTo hd, s.object_of_mem_advanced o q hq]

/-- **Until facts are published, the objects do not meet.** -/
theorem objects_prepare {s : Session} (h : (s.objects.map Tracked.id).Nodup) :
    s.prepare.objects = s.objects.map s.readied := by
  rw [prepare_eq]
  refine List.map_congr_left fun o ho => ?_
  have own := filter_flatMap_owner s.owned_answers h ho
  rw [readied, ← own, newQueries, List.flatMap_assoc, ← s.id_advanced o, Tracked.receive_filter]

end Session

end Misuse
