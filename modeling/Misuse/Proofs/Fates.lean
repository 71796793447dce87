import Misuse.Proofs.Course
import Misuse.Proofs.Integrity

/-!
# What becomes of effects

Every effect that calls have brought about (`Tracked.raised`) has its turns in passes until it
is published or dropped. The turns of a pass (`turns`) are one for each due effect, and the
effects that are held back are just what is due afterwards (`perm_publishEach`). So along a run
each effect is published once, dropped once or still due (`Turned`), and the facts in the store
are those of the effects that were published.
-/

namespace Misuse

/-! ## Effects that calls bring about -/

namespace Rule

variable (r : Rule) (m : Matcher) (object : String)

theorem exists_effect_of_mem_advance {current : List String} {call : Call} {d : Trigger}
    (h : d ∈ (r.advance m object current call).triggers) : ∃ e, r.effects[d.effect]? = some e := by
  unfold advance at h
  split at h
  next => cases h
  next =>
    obtain ⟨⟨e, i⟩, he, hd⟩ := List.mem_filterMap.mp h
    obtain ⟨s, -, rfl⟩ := Option.map_eq_some_iff.mp hd
    exact ⟨e, List.mem_zipIdx_iff_getElem?.mp he⟩

end Rule

namespace Tracked

/-- The effects that the applied calls of an object bring about. -/
def raised (m : Matcher) (o : Tracked) : List Trigger :=
  (o.rule.stepsAlong m o.id o.rule.automaton.initial o.calls).flatMap Step.triggers

theorem exists_effect_of_mem_raised {m : Matcher} {o : Tracked} {d : Trigger}
    (h : d ∈ o.raised m) : ∃ e, o.rule.effects[d.effect]? = some e := by
  obtain ⟨step, hstep, hd⟩ := List.mem_flatMap.mp h
  obtain ⟨states, call, rfl⟩ := Rule.exists_advance_of_mem_stepsAlong hstep
  exact o.rule.exists_effect_of_mem_advance m o.id hd

end Tracked

namespace Session

/-! ## Turns -/

namespace Fate

def isPublished : Fate → Bool
  | .published _ => true
  | _ => false

def isDropped : Fate → Bool
  | .dropped => true
  | _ => false

def isDeferred : Fate → Bool
  | .deferred => true
  | _ => false

/-- The facts that are published with an effect. -/
def facts : Fate → List Fact
  | .published facts => facts
  | _ => []

end Fate

/-- The turn of a due effect in a pass: the rule and the context in which it is judged, and
what becomes of it. -/
structure Turn where
  rule : Rule
  context : Context
  trigger : Trigger
  fate : Fate

namespace Turn

def object (x : Turn) : String := x.context.view.object

/-- The effects of one object that come to a fate, in the order of their turns. -/
def triggersOf (p : Fate → Bool) (id : String) (xs : List Turn) : List Trigger :=
  (xs.filter fun x => x.object == id && p x.fate).map Turn.trigger

theorem triggersOf_append (p : Fate → Bool) (id : String) (xs ys : List Turn) :
    triggersOf p id (xs ++ ys) = triggersOf p id xs ++ triggersOf p id ys := by
  simp [triggersOf]

theorem triggersOf_eq_nil {id : String} {xs : List Turn} (h : ∀ x ∈ xs, x.object ≠ id)
    (p : Fate → Bool) : triggersOf p id xs = [] := by
  rw [triggersOf, List.map_eq_nil_iff, List.filter_eq_nil_iff]
  intro x hx
  simp [h x hx]

/-- Every turn ends one way. -/
theorem perm_triggersOf {id : String} {xs : List Turn} (h : ∀ x ∈ xs, x.object = id) :
    (xs.map Turn.trigger).Perm (triggersOf Fate.isPublished id xs ++
      triggersOf Fate.isDropped id xs ++ triggersOf Fate.isDeferred id xs) := by
  induction xs with
  | nil => exact .nil
  | cons x xs ih =>
    obtain ⟨hx, hxs⟩ := List.forall_mem_cons.mp h
    have rest := (ih hxs).cons x.trigger
    rw [List.map_cons]
    refine rest.trans ?_
    cases hf : x.fate <;>
      simp only [triggersOf, List.filter_cons, hx, hf, Fate.isPublished, Fate.isDropped,
        Fate.isDeferred, beq_self_eq_true, Bool.and_true, Bool.and_false, Bool.false_eq_true,
        ↓reduceIte, List.map_cons, List.cons_append]
    case dropped => exact List.perm_middle.symm.append_right _ |>.trans (by simp)
    case deferred => exact List.perm_middle.symm
    case published => exact .refl _

end Turn

variable (s : Session)

/-- The turn of an effect at a store. -/
def turn (store : FactStore) (o : Tracked) (d : Trigger) : Turn :=
  ⟨o.rule, s.context store o, d, s.fate (s.waitingVars o.id) store o d⟩

/-- The turns of the due effects of one object. -/
def turnsOwn (o : Tracked) : Publication → List Trigger → List Turn
  | _, [] => []
  | p, d :: ds => s.turn p.store o d :: turnsOwn o (s.publishDue (s.waitingVars o.id) o p d) ds

/-- The turns of the due effects of some objects. -/
def turnsFrom : Publication → List Tracked → List Turn
  | _, [] => []
  | p, o :: os => s.turnsOwn o { p with kept := [] } o.due ++ turnsFrom (s.publishOwn p o) os

/-- The turns of a pass. -/
def turns : List Turn := s.prepare.turnsFrom ⟨s.prepare.store, 0, [], []⟩ s.prepare.objects

/-- The turns of an operation. -/
def turnsDuring (s : Session) : Op → List Turn
  | .pass => s.turns
  | _ => []

/-- The turns of the passes of a run. -/
def history (s : Session) : List Op → List Turn
  | [] => []
  | op :: ops => s.turnsDuring op ++ (s.perform op).history ops

variable {s}

theorem exists_of_mem_turnsOwn {o : Tracked} {x : Turn} {ds : List Trigger} {p : Publication}
    (h : x ∈ s.turnsOwn o p ds) : ∃ store d, x = s.turn store o d := by
  induction ds generalizing p with
  | nil => cases h
  | cons d ds ih =>
    rcases List.mem_cons.mp h with rfl | h
    · exact ⟨_, _, rfl⟩
    · exact ih h

theorem exists_of_mem_turnsFrom {x : Turn} {os : List Tracked} {p : Publication}
    (h : x ∈ s.turnsFrom p os) : ∃ o ∈ os, ∃ store d, x = s.turn store o d := by
  induction os generalizing p with
  | nil => cases h
  | cons o os ih =>
    rcases List.mem_append.mp h with h | h
    · exact ⟨o, List.mem_cons_self, exists_of_mem_turnsOwn h⟩
    · obtain ⟨a, ha, hx⟩ := ih h
      exact ⟨a, List.mem_cons_of_mem _ ha, hx⟩

/-- A dropped effect has a guard that is false at its turn, if the rule has the effect. -/
theorem guardTruth_of_dropped {store : FactStore} {o : Tracked} {d : Trigger} {e : Effect}
    (h : (s.turn store o d).fate = .dropped) (he : o.rule.effects[d.effect]? = some e) :
    guardTruth (s.context store o) e.predicate = .no := by
  simp only [turn, fate, he] at h
  split at h
  · cases h
  · cases hg : guardTruth (s.context store o) e.predicate <;> rw [hg] at h <;> cases h

/-! ## What is due after a pass -/

theorem triggers_turnsOwn (o : Tracked) (ds : List Trigger) (p : Publication) :
    (s.turnsOwn o p ds).map Turn.trigger = ds := by
  induction ds generalizing p with
  | nil => rfl
  | cons d ds ih => exact congrArg (d :: ·) (ih _)

/-- The effects that are held back are those deferred at their turns. -/
theorem kept_foldl_publishDue (o : Tracked) (ds : List Trigger) (p : Publication) :
    (ds.foldl (s.publishDue (s.waitingVars o.id) o) p).kept =
      p.kept ++ Turn.triggersOf Fate.isDeferred o.id (s.turnsOwn o p ds) := by
  induction ds generalizing p with
  | nil => exact (List.append_nil _).symm
  | cons d ds ih =>
    have first : Turn.triggersOf Fate.isDeferred o.id [s.turn p.store o d] =
        if s.fate (s.waitingVars o.id) p.store o d = .deferred then [d] else [] := by
      have own : (s.turn p.store o d).object = o.id := rfl
      have came : (s.turn p.store o d).fate = s.fate (s.waitingVars o.id) p.store o d := rfl
      rw [Turn.triggersOf, List.filter_singleton, own, came]
      cases s.fate (s.waitingVars o.id) p.store o d <;>
        simp [Fate.isDeferred, turn]
    rw [List.foldl_cons, ih, kept_publishDue, List.append_assoc, ← first,
      ← Turn.triggersOf_append]
    rfl

/-- The objects that publication leaves. -/
def publishEach (s : Session) : Publication → List Tracked → List Tracked
  | _, [] => []
  | p, o :: os => { o with due := (s.publishOwn p o).kept } :: publishEach s (s.publishOwn p o) os

theorem fst_foldl_publishObject (os done : List Tracked) (p : Publication) :
    (os.foldl s.publishObject (done, p)).1 = done ++ s.publishEach p os := by
  induction os generalizing done p with
  | nil => exact (List.append_nil _).symm
  | cons o os ih =>
    rw [List.foldl_cons, publishObject_eq, ih, List.append_assoc]
    rfl

/-- **Each due effect of an object is published, dropped or still due.** -/
theorem perm_publishEach {os : List Tracked} {p : Publication} (h : (os.map Tracked.id).Nodup)
    {o' : Tracked} (ho' : o' ∈ s.publishEach p os) :
    ∃ o ∈ os, o' = { o with due := o'.due } ∧
      o.due.Perm (Turn.triggersOf Fate.isPublished o.id (s.turnsFrom p os) ++
        Turn.triggersOf Fate.isDropped o.id (s.turnsFrom p os) ++ o'.due) := by
  induction os generalizing p with
  | nil => cases ho'
  | cons a os ih =>
    obtain ⟨apart, distinct⟩ := List.nodup_cons.mp h
    simp only [turnsFrom, Turn.triggersOf_append]
    have own : ∀ x ∈ s.turnsOwn a { p with kept := [] } a.due, x.object = a.id := by
      intro x hx
      obtain ⟨store, d, rfl⟩ := exists_of_mem_turnsOwn hx
      rfl
    rcases List.mem_cons.mp ho' with rfl | ho'
    · refine ⟨a, List.mem_cons_self, rfl, ?_⟩
      have others : ∀ x ∈ s.turnsFrom (s.publishOwn p a) os, x.object ≠ a.id := by
        intro x hx hid
        obtain ⟨o, ho, store, d, rfl⟩ := exists_of_mem_turnsFrom hx
        exact apart (hid ▸ List.mem_map_of_mem ho)
      have kept : (s.publishOwn p a).kept = _ :=
        kept_foldl_publishDue a a.due { p with kept := [] }
      rw [Turn.triggersOf_eq_nil others, Turn.triggersOf_eq_nil others, List.append_nil,
        List.append_nil, kept, List.nil_append]
      have all := Turn.perm_triggersOf own
      rwa [triggers_turnsOwn] at all
    · obtain ⟨o, ho, hdue, hperm⟩ := ih distinct ho'
      refine ⟨o, List.mem_cons_of_mem _ ho, hdue, ?_⟩
      have apart' : ∀ x ∈ s.turnsOwn a { p with kept := [] } a.due, x.object ≠ o.id := by
        intro x hx hid
        rw [own x hx] at hid
        exact apart (hid ▸ List.mem_map_of_mem ho)
      rw [Turn.triggersOf_eq_nil apart', Turn.triggersOf_eq_nil apart']
      exact hperm

/-! ## What is published in a pass -/

open Publication

/-- `q` comes from `p` by just these facts, in some order. -/
def Adds (p q : Publication) (facts : List Fact) : Prop :=
  ∃ e w, Grows p q e w ∧ (e ++ w).Perm facts

theorem Adds.trans {p q r : Publication} {fs gs : List Fact} (h : Adds p q fs)
    (h' : Adds q r gs) : Adds p r (fs ++ gs) := by
  obtain ⟨e, w, hg, hp⟩ := h
  obtain ⟨e', w', hg', hp'⟩ := h'
  refine ⟨_, _, hg.trans hg', .trans ?_ (hp.append hp')⟩
  rw [List.perm_iff_count]
  intro f
  simp only [List.count_append]
  omega

theorem adds_turnsOwn (o : Tracked) (ds : List Trigger) (p : Publication) :
    Adds p (ds.foldl (s.publishDue (s.waitingVars o.id) o) p)
      ((s.turnsOwn o p ds).flatMap fun x => x.fate.facts) := by
  induction ds generalizing p with
  | nil => exact ⟨[], [], grows_of_same rfl rfl rfl, .nil⟩
  | cons d ds ih =>
    have first : Adds p (s.publishDue (s.waitingVars o.id) o p d)
        (s.turn p.store o d).fate.facts := by
      obtain ⟨negated, -, hg⟩ := s.grows_publishDue (s.waitingVars o.id) o p d
      refine ⟨_, _, hg, ?_⟩
      have : (s.turn p.store o d).fate.facts = s.yields (s.waitingVars o.id) p.store o d := rfl
      cases negated <;> simp [this]
    exact first.trans (ih _)

theorem adds_turnsFrom (os : List Tracked) (p : Publication) :
    Adds p (os.foldl s.publishOwn p) ((s.turnsFrom p os).flatMap fun x => x.fate.facts) := by
  induction os generalizing p with
  | nil => exact ⟨[], [], grows_of_same rfl rfl rfl, .nil⟩
  | cons o os ih =>
    rw [turnsFrom, List.flatMap_append]
    have reset : Adds p { p with kept := [] } [] := ⟨[], [], grows_of_same rfl rfl rfl, .nil⟩
    exact (reset.trans (adds_turnsOwn o o.due { p with kept := [] })).trans (ih _)

/-- **A pass adds the facts of its turns to the log.** -/
theorem perm_log_pass (s : Session) :
    s.pass.1.store.log.Perm (s.store.log ++ s.turns.flatMap fun x => x.fate.facts) := by
  obtain ⟨e, w, hg, hp⟩ := s.prepare.adds_turnsFrom s.prepare.objects ⟨s.prepare.store, 0, [], []⟩
  obtain ⟨he, hw⟩ := eq_of_grows hg
  rw [log_pass, he, hw, List.append_assoc]
  exact hp.append_left _

/-! ## Runs -/

/-- Each effect of an object has been published once, dropped once, or is still due; dropped
ones had a false guard; and the facts in the store are those that were published. -/
structure Turned (s : Session) (xs : List Turn) : Prop where
  objects : ∀ o ∈ s.objects, (o.raised s.matcher).Perm
    (Turn.triggersOf Fate.isPublished o.id xs ++ Turn.triggersOf Fate.isDropped o.id xs ++ o.due)
  turns : ∀ x ∈ xs, (∃ o ∈ s.objects, o.id = x.object ∧ o.rule = x.rule) ∧
    (x.fate = .dropped → ∀ e, x.rule.effects[x.trigger.effect]? = some e →
      guardTruth x.context e.predicate = .no)
  log : s.store.log.Perm (xs.flatMap fun x => x.fate.facts)

variable {xs : List Turn} {calls : String → List Call}

/-- Between passes objects have calls queued and values bound, and objects are tracked anew. -/
theorem exists_of_mem_perform (s : Session) {op : Op} (hop : op ≠ .pass) {o' : Tracked}
    (h : o' ∈ (s.perform op).objects) :
    (∃ o ∈ s.objects, ∃ queued bindings, o' = { o with queued, bindings }) ∨
      ∃ id self rule, s.tracks id = false ∧ o' = .start id self rule := by
  have same {o' : Tracked} (h : o' ∈ s.objects) :
      ∃ o ∈ s.objects, ∃ queued bindings, o' = { o with queued, bindings } :=
    ⟨o', h, o'.queued, o'.bindings, rfl⟩
  cases op with
  | track id self className =>
    simp only [perform, track] at h
    split at h
    · exact .inl (same h)
    · split at h
      · exact .inl (same h)
      next rule _ hnew =>
        rcases List.mem_append.mp h with h | h
        · exact .inl (same h)
        · exact .inr ⟨id, self, rule, Bool.eq_false_iff.mpr hnew, List.mem_singleton.mp h⟩
  | observe id call =>
    simp only [perform, observe] at h
    split at h
    · obtain ⟨o, ho, rfl⟩ := List.mem_map.mp h
      refine .inl ⟨o, ho, ?_⟩
      split
      · exact ⟨_, _, rfl⟩
      · exact ⟨_, _, rfl⟩
    · exact .inl (same h)
  | bind id b =>
    simp only [perform, Session.bind] at h
    split at h
    · exact .inl (same h)
    · obtain ⟨o, ho, rfl⟩ := List.mem_map.mp h
      refine .inl ⟨o, ho, ?_⟩
      split
      · exact ⟨_, _, o.bind_eq b⟩
      · exact ⟨_, _, rfl⟩
  | supply q values => exact .inl (same h)
  | resolveAll answer? =>
    obtain ⟨registry, inbox, he⟩ := s.resolveAll_eq answer?
    simp only [perform, he] at h
    exact .inl (same h)
  | pass => exact absurd rfl hop

theorem turned_start {settings : Settings} {rules : Rulebook} {subtyping : Subtyping}
    (h : start settings rules subtyping = .ok s) : s.Turned [] := by
  rw [eq_of_start h]
  exact ⟨nofun, nofun, .nil⟩

/-- Between passes no effect has its turn. -/
theorem Turned.perform (h : s.Turned xs) {op : Op} (hop : op ≠ .pass) :
    (s.perform op).Turned xs := by
  have matcher : (s.perform op).matcher = s.matcher := matcher_eq_of_frame (s.frame_perform op)
  refine ⟨fun o' ho' => ?_, fun x hx => ?_, by rw [s.store_perform hop]; exact h.log⟩
  · rw [matcher]
    rcases s.exists_of_mem_perform hop ho' with ⟨o, ho, queued, bindings, rfl⟩ |
      ⟨id, self, rule, hid, rfl⟩
    · exact h.objects o ho
    · -- no turn is of an object that was not tracked
      have others : ∀ x ∈ xs, x.object ≠ id := by
        rintro x hx rfl
        obtain ⟨o, ho, hox, -⟩ := (h.turns x hx).1
        rw [← hox, tracks_of_mem ho] at hid
        cases hid
      change List.Perm [] (_ ++ _ ++ [])
      rw [show (Tracked.start id self rule).id = id from rfl, Turn.triggersOf_eq_nil others,
        Turn.triggersOf_eq_nil others]
      exact .nil
  · obtain ⟨⟨o, ho, hid, hrule⟩, dropped⟩ := h.turns x hx
    obtain ⟨change, fresh, between⟩ := s.between_perform hop
    have queues := between.queues o ho
    refine ⟨⟨change o, ?_, queues.id.trans hid, queues.rule.trans hrule⟩, dropped⟩
    rw [between.objects]
    exact List.mem_append_left _ (List.mem_map_of_mem ho)

/-- What is left of an object by a pass, with the turns of its effects. -/
theorem exists_turned_of_mem_pass (c : s.Chronicle calls) {o' : Tracked}
    (ho' : o' ∈ s.pass.1.objects) :
    ∃ o ∈ s.objects, o'.id = o.id ∧ o'.rule = o.rule ∧
      o'.raised s.matcher = o.raised s.matcher ++ (o.queuedSteps s.matcher).flatMap Step.triggers ∧
      (o.dueNext s.matcher).Perm (Turn.triggersOf Fate.isPublished o.id s.turns ++
        Turn.triggersOf Fate.isDropped o.id s.turns ++ o'.due) := by
  rw [pass_fst] at ho'
  obtain ⟨b, hb, rfl⟩ := List.mem_map.mp ho'
  have each : s.prepare.publish.1.objects =
      s.prepare.publishEach ⟨s.prepare.store, 0, [], []⟩ s.prepare.objects := by
    have := s.prepare.fst_foldl_publishObject s.prepare.objects [] ⟨s.prepare.store, 0, [], []⟩
    rwa [List.nil_append] at this
  rw [each] at hb
  obtain ⟨a, ha, hdue, hperm⟩ := perm_publishEach c.distinct_prepare hb
  rw [objects_prepare c.distinct] at ha
  obtain ⟨o, ho, rfl⟩ := List.mem_map.mp ha
  have ready := s.readied_eq o
  refine ⟨o, ho, ?_, ?_, ?_, ?_⟩
  · exact (congrArg Tracked.id hdue).trans (s.id_readied o)
  · exact (congrArg Tracked.rule hdue).trans (s.rule_readied o)
  · have raised : Tracked.raised s.matcher b = (s.readied o).raised s.matcher := by
      rw [hdue]
      rfl
    change b.raised s.matcher = _
    rw [raised, ready]
    simp only [Tracked.raised, Rule.stepsAlong_append, List.flatMap_append]
    rw [← c.states o ho]
    rfl
  · have due : (s.readied o).due = o.dueNext s.matcher := by rw [ready]
    rw [due, id_readied] at hperm
    exact hperm

/-- **A pass gives each due effect its turn.** -/
theorem Turned.pass (h : s.Turned xs) (c : s.Chronicle calls) :
    s.pass.1.Turned (xs ++ s.turns) := by
  have matcher : s.pass.1.matcher = s.matcher := matcher_eq_of_frame s.frame_pass
  have kept : ∀ o ∈ s.objects, ∃ o' ∈ s.pass.1.objects, o'.id = o.id ∧ o'.rule = o.rule := by
    intro o ho
    have : o.id ∈ s.pass.1.objects.map Tracked.id := s.ids_pass ▸ List.mem_map_of_mem ho
    obtain ⟨o', ho', hid⟩ := List.mem_map.mp this
    obtain ⟨a, ha, hid', hrule, -⟩ := exists_of_mem_pass ho'
    obtain rfl := List.inj_on_of_nodup_map c.distinct ha ho (hid'.symm.trans hid)
    exact ⟨o', ho', hid, hrule⟩
  refine ⟨fun o' ho' => ?_, fun x hx => ?_, ?_⟩
  · rw [matcher]
    obtain ⟨o, ho, hid, -, hraised, hnext⟩ := exists_turned_of_mem_pass c ho'
    rw [hraised, hid, Turn.triggersOf_append, Turn.triggersOf_append, List.perm_iff_count]
    intro d
    have before := (h.objects o ho).count_eq d
    have passed := hnext.count_eq d
    simp only [Tracked.dueNext, List.count_append] at before passed ⊢
    omega
  · rcases List.mem_append.mp hx with hx | hx
    · obtain ⟨⟨o, ho, hid, hrule⟩, dropped⟩ := h.turns x hx
      obtain ⟨o', ho', hid', hrule'⟩ := kept o ho
      exact ⟨⟨o', ho', hid'.trans hid, hrule'.trans hrule⟩, dropped⟩
    · obtain ⟨a, ha, store, d, rfl⟩ := exists_of_mem_turnsFrom hx
      rw [objects_prepare c.distinct] at ha
      obtain ⟨o, ho, rfl⟩ := List.mem_map.mp ha
      obtain ⟨o', ho', hid', hrule'⟩ := kept o ho
      refine ⟨⟨o', ho', hid'.trans (s.id_readied o).symm, hrule'.trans (s.rule_readied o).symm⟩, ?_⟩
      exact fun hdropped e he => guardTruth_of_dropped hdropped he
  · rw [List.flatMap_append]
    exact s.perm_log_pass.trans (h.log.append_right _)

/-- **So does a run.** -/
theorem Turned.run (h : s.Turned xs) (c : s.Chronicle calls) (ops : List Op) :
    (s.run ops).Turned (xs ++ s.history ops) := by
  induction ops generalizing s calls xs with
  | nil => simpa [history] using h
  | cons op ops ih =>
    have next := c.run [op]
    rw [run_cons, history, ← List.append_assoc]
    by_cases hop : op = .pass
    · subst hop
      exact ih (h.pass c) next
    · have quiet : s.turnsDuring op = [] := by
        cases op with
        | pass => exact absurd rfl hop
        | _ => rfl
      rw [quiet, List.append_nil]
      exact ih (h.perform hop) next

/-- A dropped effect had a false guard. -/
theorem Turned.exists_effect (h : s.Turned xs) {x : Turn} (hx : x ∈ xs)
    (hdropped : x.fate = .dropped) :
    ∃ e, x.rule.effects[x.trigger.effect]? = some e ∧ guardTruth x.context e.predicate = .no := by
  obtain ⟨⟨o, ho, hid, hrule⟩, dropped⟩ := h.turns x hx
  have raised : x.trigger ∈ o.raised s.matcher := by
    rw [(h.objects o ho).mem_iff]
    refine List.mem_append_left _ (List.mem_append_right _ ?_)
    exact List.mem_map_of_mem (List.mem_filter.mpr ⟨hx, by simp [hid, hdropped, Fate.isDropped]⟩)
  obtain ⟨e, he⟩ := Tracked.exists_effect_of_mem_raised raised
  rw [hrule] at he
  exact ⟨e, he, dropped hdropped e he⟩

end Session

end Misuse
