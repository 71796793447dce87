import Misuse.Proofs.Acceptance
import Misuse.Proofs.Chains
import Misuse.Proofs.Indexing
import Misuse.Proofs.Ledger
import Misuse.Proofs.Reads

/-!
# The integrity of a session

A session looks things up that it takes to be there: the object at the position of a delivery, the
effect of a trigger, the constraint at an index, the declaration of a state. Over rules that have
passed the check they are there, in every session that operations lead to and between any two steps
of a pass (`intact_run`). A state set stays one of declared states because the check has seen the
initial states and all targets (`Configuration.advance`); the rest is an invariant with one lemma
for each operation (`Intact.perform`) and each step of a pass (`Intact.of_mem_stages`).
-/

namespace Misuse

/-! ## States -/

namespace Automaton

/-- A set of states that an object can be in: there is one, and all are declared. -/
structure Configuration (a : Automaton) (states : List String) : Prop where
  nonempty : states ≠ []
  declared : ∀ id ∈ states, a.declares id = true

/-- Whether a declared state accepts is what one of its declarations says. -/
theorem isAccepting_of_declares {a : Automaton} {id : String} (h : a.declares id = true) :
    ∃ s ∈ a.states, s.id = id ∧ a.isAccepting id = s.accepting := by
  unfold isAccepting
  cases hs : a.states.find? fun s => s.id == id with
  | some s => exact ⟨s, List.mem_of_find?_eq_some hs, by simpa using List.find?_some hs, rfl⟩
  | none =>
    obtain ⟨s, hmem, hid⟩ := List.any_eq_true.mp h
    exact absurd hid (List.find?_eq_none.mp hs s hmem)

end Automaton

/-- A trigger refers to an effect of the rule and to a declared state. -/
structure Rule.Grounds (r : Rule) (t : Trigger) : Prop where
  effect : t.effect < r.effects.length
  state : r.automaton.declares t.state = true

namespace Automaton.Configuration

variable {r : Rule} {m : Matcher} {object : String} {current : List String}

/-- The state of a trigger is one that was reached. -/
theorem grounds_triggers {site : String} (h : r.automaton.Configuration current) :
    ∀ t ∈ r.triggers site current, r.Grounds t := by
  intro t ht
  obtain ⟨⟨e, i⟩, he, hfound⟩ := List.mem_filterMap.mp ht
  obtain ⟨s, hs, rfl⟩ := Option.map_eq_some_iff.mp hfound
  exact ⟨(List.mem_zipIdx' he).1, h.declared s (List.mem_of_find?_eq_some hs)⟩

theorem advance (h : r.automaton.Configuration current) (hr : r.Accepted) (call : Call) :
    r.automaton.Configuration (r.advance m object current call).states := by
  cases hmoves : (r.advance m object current call).progressed with
  | false =>
    rw [Rule.states_advance_of_stuck r m object hmoves]
    exact h
  | true =>
    refine ⟨?_, fun q hq => ?_⟩
    · obtain ⟨p, hp, q, hq⟩ := (r.progressed_advance_iff m object current call).mp hmoves
      exact List.ne_nil_of_mem
        ((r.mem_states_advance_iff m object hmoves q).mpr ⟨p, hp, hq⟩)
    · obtain ⟨p, -, -, -, t, ht, -, rfl, -⟩ :=
        (r.mem_states_advance_iff m object hmoves q).mp hq
      exact hr.declares_target ht

theorem statesAlong (h : r.automaton.Configuration current) (hr : r.Accepted)
    (calls : List Call) :
    r.automaton.Configuration (r.statesAlong m object current calls) := by
  induction calls generalizing current with
  | nil => exact h
  | cons call calls ih => exact ih (h.advance hr call)

theorem grounds_advance (h : r.automaton.Configuration current) (hr : r.Accepted) (call : Call) :
    ∀ t ∈ (r.advance m object current call).triggers, r.Grounds t := by
  have reached : r.automaton.Configuration (r.advance m object current call).states :=
    h.advance hr call
  unfold Rule.advance at reached ⊢
  split
  · exact nofun
  next hfired =>
    simp only [hfired] at reached
    exact reached.grounds_triggers

theorem grounds_stepsAlong (h : r.automaton.Configuration current) (hr : r.Accepted)
    (calls : List Call) :
    ∀ t ∈ (r.stepsAlong m object current calls).flatMap Step.triggers, r.Grounds t := by
  induction calls generalizing current with
  | nil => exact nofun
  | cons call calls ih =>
    intro t ht
    rw [Rule.stepsAlong, List.flatMap_cons, List.mem_append] at ht
    rcases ht with ht | ht
    · exact h.grounds_advance hr call t ht
    · exact ih (h.advance hr call) t ht

end Automaton.Configuration

/-! ## Objects -/

/-- All that an object keeps of its rule is there: its states, the effects that are due, and
the constraints that are pending. -/
structure Tracked.Intact (o : Tracked) : Prop where
  accepted : o.rule.Accepted
  states : o.rule.automaton.Configuration o.states
  due : ∀ t ∈ o.due, o.rule.Grounds t
  pending : ∀ i ∈ o.pending, ∃ c, o.rule.constraints[i]? = some c ∧ c.isThrows = false

namespace Tracked.Intact

variable {o : Tracked}

theorem start (id self : String) {rule : Rule} (h : rule.Accepted) :
    (Tracked.start id self rule).Intact :=
  ⟨h, ⟨h.initial, fun _ hs => h.declares_initial hs⟩, nofun, nofun⟩

theorem bind (h : o.Intact) (b : Binding) : (o.bind b).Intact := by
  rw [Tracked.bind_eq]
  exact ⟨h.accepted, h.states, h.due, h.pending⟩

theorem receive (h : o.Intact) (ds : List (Delivery String)) : (o.receive ds).Intact := by
  rw [Tracked.receive_eq]
  exact ⟨h.accepted, h.states, h.due, h.pending⟩

theorem applyQueued (h : o.Intact) (m : Matcher) : (o.applyQueued m).object.Intact := by
  rw [Tracked.applyQueued_eq]
  refine ⟨h.accepted, h.states.statesAlong h.accepted o.queued, fun t ht => ?_, h.pending⟩
  rcases List.mem_append.mp ht with ht | ht
  · exact h.due t ht
  · exact h.states.grounds_stepsAlong h.accepted o.queued t ht

theorem keep (h : o.Intact) {due : List Trigger} (hdue : ∀ t ∈ due, t ∈ o.due) :
    { o with due := due }.Intact :=
  ⟨h.accepted, h.states, fun t ht => h.due t (hdue t ht), h.pending⟩

/-- What a judgement hands back are constraints, and no declared exceptions. -/
theorem judged (h : o.Intact) (policy : Policy) (ctx : Context) :
    { o with pending := (o.rule.judge policy ctx).pending }.Intact := by
  refine ⟨h.accepted, h.states, h.due, fun i hi => ?_⟩
  obtain ⟨-, c, hc, hthrows, -⟩ := Policy.mem_pending_iff.mp hi
  exact ⟨c, hc, hthrows⟩

end Tracked.Intact

namespace Session

/-! ## Sessions -/

/-- All objects keep what is there, and whatever is or will be in the inbox is for one of
them. -/
structure Intact (s : Session) : Prop where
  rules : s.rules.Accepted
  objects : ∀ o ∈ s.objects, o.Intact
  inbox : ∀ d ∈ s.inbox, s.tracks d.target = true
  listeners : ∀ q ls, s.registry.status? q = some (.waiting ls) → ∀ l ∈ ls, s.tracks l = true

theorem intact_start {settings : Settings} {rules : Rulebook} {subtyping : Subtyping} {s : Session}
    (h : start settings rules subtyping = .ok s) (hr : rules.Accepted) : s.Intact := by
  have accepted : (rulesFor settings rules).Accepted := by
    unfold rulesFor
    split
    · exact hr.revalidate true
    · exact hr
  rw [eq_of_start h]
  exact ⟨accepted, nofun, nofun, nofun⟩

/-- The queries of a pass are asked by tracked objects. -/
theorem tracks_of_mem_applyCalls {s : Session} {q : Query}
    (h : q ∈ s.applyCalls.2) : s.applyCalls.1.tracks q.object = true := by
  obtain ⟨p, hp, hq⟩ := List.mem_flatMap.mp h
  obtain ⟨o, ho, rfl⟩ := List.mem_map.mp hp
  rw [Tracked.object_of_mem_queries hq,
    tracks_congr (s := s) (by simp [Session.applyCalls, Tracked.applyQueued_eq])]
  exact tracks_of_mem ho

/-- Whoever listens after a query is asked has asked it, or was listening before. -/
theorem waiting_of_ask {s : Session} {q p : Query} {ls : List String} {l : String}
    (h : (s.ask q).registry.status? p = some (.waiting ls)) (hl : l ∈ ls) :
    l = q.object ∨ ∃ before, s.registry.status? p = some (.waiting before) ∧ l ∈ before := by
  rw [status?_ask] at h
  by_cases hqp : q = p
  · subst hqp
    rw [if_pos rfl, Option.some.injEq] at h
    cases hs : s.registry.status? q with
    | none =>
      rw [hs] at h
      cases h
      exact .inl (List.mem_singleton.mp hl)
    | some st =>
      rw [hs] at h
      cases st with
      | waiting before =>
        cases h
        rcases List.mem_append.mp hl with hl | hl
        · exact .inr ⟨before, rfl, hl⟩
        · exact .inl (List.mem_singleton.mp hl)
      | answered values => cases h
  · rw [if_neg hqp] at h
    exact .inr ⟨ls, h, hl⟩

/-- What is held back was due. -/
theorem mem_due_of_mem_kept {s : Session} {p : Publication} {o : Tracked} {t : Trigger}
    (h : t ∈ (s.publishOwn p o).kept) : t ∈ o.due := by
  refine List.foldlRecOn (motive := fun p : Publication => t ∈ p.kept → t ∈ o.due) o.due
    (s.publishDue (s.waitingVars o.id) o) ?_ (fun p held t' ht' h => ?_) h
  · exact nofun
  · rw [kept_publishDue] at h
    rcases List.mem_append.mp h with h | h
    · exact held h
    · split at h
      · exact List.mem_singleton.mp h ▸ ht'
      · cases h

/-- Publishing holds some effects back, and changes nothing else of an object. -/
theorem exists_of_mem_publish {s : Session} {o' : Tracked} (h : o' ∈ s.publish.1.objects) :
    ∃ o ∈ s.objects, ∃ due, (∀ t ∈ due, t ∈ o.due) ∧ o' = { o with due := due } := by
  refine List.foldlRecOn (motive := fun acc : List Tracked × Publication => o' ∈ acc.1 →
      ∃ o ∈ s.objects, ∃ due, (∀ t ∈ due, t ∈ o.due) ∧ o' = { o with due := due })
    s.objects s.publishObject ?_ (fun acc before o ho h => ?_) h
  · exact nofun
  · rw [publishObject_eq] at h
    rcases List.mem_append.mp h with h | h
    · exact before h
    · exact ⟨o, ho, _, fun t ht => mem_due_of_mem_kept ht, List.mem_singleton.mp h⟩

theorem ids_publish (s : Session) :
    s.publish.1.objects.map Tracked.id = s.objects.map Tracked.id := by
  have h := congrArg (List.map Tracked.id) s.settled_publish
  simpa [List.map_map, Function.comp_def, Tracked.settled] using h

/-- The sessions that a pass goes through: bindings are taken in, calls applied, queries asked,
their answers taken in, facts published, and objects judged. -/
def stages (s : Session) : List Session :=
  let received := { s with passes := s.passes + 1 }.drain.1
  let called := received.applyCalls
  let asked := (called.1.askAll called.2).1
  let answered := asked.drain.1
  let published := answered.publish.1
  [received, called.1, asked, answered, published, published.judge]

theorem pass_mem_stages (s : Session) : s.pass.1 ∈ s.stages := by
  rw [pass_fst]
  simp only [stages, List.mem_cons]
  exact .inr (.inr (.inr (.inr (.inr (.inl rfl)))))

/-- No step of a pass adds, loses or moves an object. -/
theorem ids_stages (s : Session) :
    ∀ u ∈ s.stages, u.objects.map Tracked.id = s.objects.map Tracked.id := by
  have judged (u : Session) : u.judge.objects.map Tracked.id = u.objects.map Tracked.id := by
    simp [judge]
  intro u hu
  simp only [stages, List.mem_cons, List.not_mem_nil, or_false] at hu
  rcases hu with rfl | rfl | rfl | rfl | rfl | rfl <;>
    simp only [judged, ids_publish, ids_drain, ids_askAll, ids_applyCalls]

namespace Intact

variable {s : Session}

/-- A change that loses no object, and leaves all there is to objects of the session before. -/
theorem change {t : Session} (h : s.Intact) (rules : t.rules = s.rules)
    (tracks : ∀ id, s.tracks id = true → t.tracks id = true)
    (objects : ∀ o ∈ t.objects, o.Intact) (inbox : ∀ d ∈ t.inbox, s.tracks d.target = true)
    (listeners : ∀ q ls, t.registry.status? q = some (.waiting ls) →
      ∀ l ∈ ls, s.tracks l = true) : t.Intact :=
  ⟨rules ▸ h.rules, objects, fun d hd => tracks _ (inbox d hd),
    fun q ls hq l hl => tracks l (listeners q ls hq l hl)⟩

/-- A change of the objects one by one. -/
theorem changeObjects {t : Session} (h : s.Intact) (rules : t.rules = s.rules)
    (ids : t.objects.map Tracked.id = s.objects.map Tracked.id)
    (objects : ∀ o ∈ t.objects, o.Intact) (inbox : ∀ d ∈ t.inbox, d ∈ s.inbox)
    (registry : t.registry = s.registry) : t.Intact :=
  h.change rules (fun id hid => (tracks_congr ids id).trans hid) objects
    (fun d hd => h.inbox d (inbox d hd)) (registry ▸ h.listeners)

theorem update (h : s.Intact) (id : String) {f : Tracked → Tracked} (hf : ∀ o, (f o).id = o.id)
    (hi : ∀ o : Tracked, o.Intact → (f o).Intact) : (s.update id f).Intact := by
  refine h.changeObjects rfl (s.ids_update id hf) (fun o' ho' => ?_) (fun _ hd => hd) rfl
  obtain ⟨o, ho, rfl⟩ := List.mem_map.mp ho'
  split
  · exact hi o (h.objects o ho)
  · exact h.objects o ho

/-! ## Operations between passes -/

theorem perform_track (h : s.Intact) (id self className : String) :
    (s.perform (.track id self className)).Intact := by
  simp only [Session.perform, Session.track]
  cases hr : s.rules.get? className with
  | none => exact h
  | some rule =>
    cases ht : s.tracks id with
    | true => exact h
    | false =>
      refine h.change rfl (fun id' hid' => ?_) (fun o ho => ?_) h.inbox h.listeners
      · rw [tracks_eq_true_iff] at hid' ⊢
        simp only [Bool.false_eq_true, ↓reduceIte, Except.toOption, Option.getD_some,
          List.map_append, List.mem_append]
        exact .inl hid'
      · rcases List.mem_append.mp ho with ho | ho
        · exact h.objects o ho
        · rw [List.mem_singleton.mp ho]
          exact .start id self (h.rules.get? hr)

theorem supply (h : s.Intact) (q : Query) (values : List Value) : (s.supply q values).1.Intact := by
  refine h.change rfl (fun _ hid => hid) h.objects (fun d hd => ?_)
    fun p ls hp => h.listeners p ls (waiting_of_supply hp)
  rcases List.mem_append.mp hd with hd | hd
  · exact h.inbox d hd
  · obtain ⟨ls, hls, htarget, -⟩ := Registry.snd_resolve s.registry q values hd
    exact h.listeners q ls hls _ htarget

theorem supplyAll (h : s.Intact) (answers : Answers) : (s.supplyAll answers).Intact := by
  induction answers generalizing s with
  | nil => exact h
  | cons a answers ih => exact ih (h.supply a.1 a.2)

/-! ## The steps of a pass -/

theorem drain (h : s.Intact) : s.drain.1.Intact := by
  rw [drain_fst]
  refine h.changeObjects rfl (by simp) (fun o' ho' => ?_) nofun rfl
  obtain ⟨o, ho, rfl⟩ := List.mem_map.mp ho'
  exact (h.objects o ho).receive s.inbox

theorem applyCalls (h : s.Intact) : s.applyCalls.1.Intact := by
  refine h.changeObjects rfl (by simp [Session.applyCalls, Tracked.applyQueued_eq])
    (fun o' ho' => ?_) (fun _ hd => hd) rfl
  obtain ⟨p, hp, rfl⟩ := List.mem_map.mp ho'
  obtain ⟨o, ho, rfl⟩ := List.mem_map.mp hp
  exact (h.objects o ho).applyQueued s.matcher

theorem ask (h : s.Intact) {q : Query} (hq : s.tracks q.object = true) : (s.ask q).Intact := by
  refine h.change (by rw [ask_eq]) (fun id hid => ?_) (fun o ho => ?_) (fun d hd => ?_)
    fun p ls hp l hl => ?listeners
  · rw [ask_eq]
    exact hid
  · rw [ask_eq] at ho
    exact h.objects o ho
  · rw [ask_eq] at hd
    rcases List.mem_append.mp hd with hd | hd
    · exact h.inbox d hd
    · rw [target_of_mem_answersTo hd]
      exact hq
  case listeners =>
    rcases waiting_of_ask hp hl with rfl | ⟨before, hbefore, hl⟩
    · exact hq
    · exact h.listeners p before hbefore l hl

theorem askAll (h : s.Intact) {qs : List Query} (hqs : ∀ q ∈ qs, s.tracks q.object = true) :
    (s.askAll qs).1.Intact := by
  unfold Session.askAll
  rw [fst_foldl_askCounting]
  induction qs generalizing s with
  | nil => exact h
  | cons q qs ih =>
    obtain ⟨hq, hqs⟩ := List.forall_mem_cons.mp hqs
    refine ih (h.ask hq) fun p hp => ?_
    rw [ask_eq]
    exact hqs p hp

theorem publish (h : s.Intact) : s.publish.1.Intact := by
  refine h.changeObjects (by rw [publish_fst]) s.ids_publish (fun o' ho' => ?_)
    (fun d hd => ?_) (by rw [publish_fst])
  · obtain ⟨o, ho, due, hdue, rfl⟩ := exists_of_mem_publish ho'
    exact (h.objects o ho).keep hdue
  · rw [publish_fst] at hd
    exact hd

theorem judge (h : s.Intact) : s.judge.Intact := by
  refine h.changeObjects rfl (by simp [Session.judge]) (fun o' ho' => ?_) (fun _ hd => hd) rfl
  obtain ⟨o, ho, rfl⟩ := List.mem_map.mp ho'
  exact (h.objects o ho).judged s.settings.constraints.policy (s.context s.store o)

theorem count (h : s.Intact) : { s with passes := s.passes + 1 }.Intact :=
  ⟨h.rules, h.objects, h.inbox, h.listeners⟩

/-- **The steps of a pass find all they look up.** -/
theorem of_mem_stages (h : s.Intact) : ∀ u ∈ s.stages, u.Intact := by
  have received := h.count.drain
  have called := received.applyCalls
  have asked := called.askAll fun _ hq => tracks_of_mem_applyCalls hq
  have answered := asked.drain
  have published := answered.publish
  intro u hu
  simp only [stages, List.mem_cons, List.not_mem_nil, or_false] at hu
  rcases hu with rfl | rfl | rfl | rfl | rfl | rfl
  · exact received
  · exact called
  · exact asked
  · exact answered
  · exact published
  · exact published.judge

/-! ## Runs -/

theorem pass (h : s.Intact) : s.pass.1.Intact :=
  h.of_mem_stages _ s.pass_mem_stages

theorem perform (h : s.Intact) (op : Op) : (s.perform op).Intact := by
  cases op with
  | track id self className => exact h.perform_track id self className
  | observe id call =>
    simp only [Session.perform, Session.observe]
    split
    · exact h.update id (fun _ => rfl) fun _ ho => ⟨ho.accepted, ho.states, ho.due, ho.pending⟩
    · exact h
  | bind id b =>
    simp only [Session.perform, Session.bind]
    split
    · exact h
    · exact h.update id (fun o => by rw [Tracked.bind_eq]) fun _ ho => ho.bind b
  | supply q values => exact h.supply q values
  | resolveAll answer? =>
    change (s.resolveAll answer?).Intact
    rw [resolveAll_eq_supplyAll]
    exact h.supplyAll _
  | pass => exact h.pass

theorem run (h : s.Intact) (ops : List Op) : (s.run ops).Intact := by
  induction ops generalizing s with
  | nil => exact h
  | cons op ops ih => exact ih (h.perform op)

end Intact

/-! ## What is looked up is there -/

/-- A tracked object can be bound. -/
theorem exists_bind_eq_ok {s : Session} {id : String} (h : s.tracks id = true) (b : Binding) :
    ∃ r, s.bind id b = .ok r := by
  obtain ⟨o, ho⟩ := Option.isSome_iff_exists.mp h
  exact ⟨(s.update id fun o => o.bind b, !o.hasPlace b), by simp only [Session.bind, ho]⟩

/-- When its turn comes, a delivery finds its object by position. -/
theorem Intact.exists_bind_eq_ok {s : Indexed} (h : s.toSession.Intact) (exact : s.Exact)
    {before after : List (Delivery String)} {d : Delivery String}
    (hd : s.inbox = before ++ d :: after) :
    ∃ r, (before.foldl Indexed.deliver ({ s with inbox := [] }, 0)).1.bind d.target d.binding =
      .ok r := by
  have opened : Indexed.Exact { s with inbox := [] } := exact
  have ids : (before.foldl deliver ({ s.toSession with inbox := [] }, 0)).1.objects.map Tracked.id =
      s.objects.map Tracked.id := by
    simp [fst_foldl_deliver]
  rw [opened.foldl_deliver_eq, (opened.of_ids ids).bind_eq]
  obtain ⟨r, hr⟩ := Session.exists_bind_eq_ok
    ((tracks_congr ids d.target).trans (h.inbox d (by simp [hd]))) d.binding
  exact ⟨_, congrArg (Except.map _) hr⟩

/-- **Nothing is looked up in vain.** Take a session over accepted rules that finds its objects by
their positions, after any run or any step of the pass that follows. It is the one that finds them
by a search. Its objects and its inbox are intact, and every object has its position entered. So
every delivery finds its object, the positions find what a search by id does, and whatever calls an
object is advanced by, its states are declared and accept as declared. -/
theorem intact_run {settings : Settings} {rules : Rulebook} {subtyping : Subtyping} {s : Indexed}
    (h : Indexed.start settings rules subtyping = .ok s) (hr : rules.Accepted) (ops : List Op) :
    let t := s.run ops
    t.toSession = s.toSession.run ops ∧
      ∀ u ∈ t.toSession :: t.toSession.stages,
        u.Intact ∧ t.positions.Exact (u.objects.map Tracked.id) ∧
          (∀ before d after, u.inbox = before ++ d :: after → ∃ r,
            (before.foldl Indexed.deliver (⟨{ u with inbox := [] }, t.positions⟩, 0)).1.bind
              d.target d.binding = .ok r) ∧
          (∀ id, Indexed.object? ⟨u, t.positions⟩ id = u.object? id) ∧
          ∀ o ∈ u.objects, ∀ m calls,
            let states := o.rule.statesAlong m o.id o.states calls
            states ≠ [] ∧ ∀ id ∈ states, ∃ state ∈ o.rule.automaton.states,
              state.id = id ∧ o.rule.automaton.isAccepting id = state.accepting := by
  intro t
  obtain ⟨same, exact⟩ := (Indexed.exact_start h).run_eq ops
  refine ⟨same, fun u hu => ?_⟩
  have intact : t.toSession.Intact := by
    rw [same]
    exact (intact_start (Indexed.start_eq_ok_iff.mp h).1 hr).run ops
  have ids : u.objects.map Tracked.id = t.objects.map Tracked.id := by
    rcases List.mem_cons.mp hu with rfl | hu
    · rfl
    · exact ids_stages _ u hu
  have whole : u.Intact := by
    rcases List.mem_cons.mp hu with rfl | hu
    · exact intact
    · exact intact.of_mem_stages u hu
  have placed : Indexed.Exact ⟨u, t.positions⟩ := exact.of_ids ids
  refine ⟨whole, placed, fun before d after hd => Intact.exists_bind_eq_ok whole placed hd,
    placed.object?_eq, fun o ho m calls => ?_⟩
  have after : o.rule.automaton.Configuration (o.rule.statesAlong m o.id o.states calls) :=
    (whole.objects o ho).states.statesAlong (whole.objects o ho).accepted calls
  exact ⟨after.nonempty, fun id hid => Automaton.isAccepting_of_declares (after.declared id hid)⟩

/-! ## A cipher on the way -/

/-- A cipher is for AES, and is prepared if it is. -/
def onTheWaySession : Session :=
  { guardedSession with
    rules := Rulebook.empty.insert false
      { guardedRule with constraints := [.member (.whole "alg" "String") ["AES"]] } }

/-- The algorithm is answered after the pass that has asked for it. -/
def onTheWayOps : List Op :=
  [.track "c" "c@1" "Cipher", .observe "c" ⟨"1", ⟨"Cipher", "init", ["String"]⟩, "Cipher"⟩, .pass,
   .supply ⟨"c", "1", "alg", .argument 0⟩ [⟨.constant (.text "AES"), none⟩]]

/-- An effect is due, a constraint is pending and a binding is on its way, and all three
arrive. -/
theorem intact_run_on_the_way :
    let s : Indexed := ⟨onTheWaySession, []⟩
    let t := s.run onTheWayOps
    Indexed.start s.settings s.rules s.subtyping = .ok s ∧ s.rules.Accepted ∧
      t.objects.map (fun o => (o.due.length, o.pending)) = [(1, [0])] ∧
      t.inbox.map Delivery.target = ["c"] ∧ t.positions.get? "c" = some 0 ∧
      (∀ u ∈ t.toSession :: t.toSession.stages, u.Intact) ∧
      t.pass.1.objects.map (fun o => (o.due.length, o.pending)) = [(0, [])] := by
  intro s t
  have started : Indexed.start s.settings s.rules s.subtyping = .ok s := rfl
  have accepted : s.rules.Accepted := Rulebook.accepted_empty.insert false _
  refine ⟨started, accepted, by decide, by decide, by decide, fun u hu => ?_, by decide +kernel⟩
  exact ((intact_run started accepted onTheWayOps).2 u hu).1

end Session

end Misuse
