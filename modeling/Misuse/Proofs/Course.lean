import Misuse.Proofs.Deferral
import Misuse.Proofs.Order

/-!
# The facts of a whole run

Once the calls are observed, what a run will have published can be told from one session that
has all the answers and is ready to publish: the facts that its due effects yield
(`Gives`). `Course` is the invariant of a run towards it: all that is published is given, and
what is given and not published is still due. A pass keeps it (`Course.pass`); one that knows
all the answers leaves nothing that is given unpublished (`Course.log_pass_iff`).
-/

namespace Misuse

/-! ## Objects through a pass -/

namespace Tracked

/-- The effects that are due once the queued calls are applied. -/
def dueNext (m : Matcher) (o : Tracked) : List Trigger :=
  o.due ++ (o.queuedSteps m).flatMap Step.triggers

theorem dueNext_of_queued (m : Matcher) {o : Tracked} (h : o.queued = []) :
    o.dueNext m = o.due := by
  unfold dueNext queuedSteps
  rw [h]
  simp [Rule.stepsAlong]

end Tracked

namespace Session

variable {s t u : Session} {calls : String → List Call}

/-- An object that is ready has applied its calls, with all that is due from them. -/
theorem readied_eq (s : Session) (o : Tracked) :
    s.readied o = { o with
      states := (s.readied o).states
      calls := o.calls ++ o.queued
      queued := []
      bindings := (s.readied o).bindings
      due := o.dueNext s.matcher } := by
  have steps : (o.receive s.inbox).queuedSteps s.matcher = o.queuedSteps s.matcher := by
    rw [Tracked.queuedSteps, Tracked.receive_eq]
    rfl
  unfold readied
  rw [Tracked.receive_eq, advanced, Tracked.applyQueued_eq, steps, Tracked.receive_eq]
  rfl

/-- One object after a pass: ready, with what is held back still due. -/
def left (s : Session) (pending : List Nat) (o : Tracked) : Tracked :=
  { s.readied o with due := s.prepare.heldBack s.prepare.store (s.readied o), pending }

theorem left_eq (s : Session) (pending : List Nat) (o : Tracked) :
    s.left pending o = { o with
      states := (s.readied o).states
      calls := o.calls ++ o.queued
      queued := []
      bindings := (s.readied o).bindings
      pending
      due := s.prepare.heldBack s.prepare.store (s.readied o) } := by
  unfold left
  rw [readied_eq]

theorem dueNext_left (s : Session) (m : Matcher) (pending : List Nat) (o : Tracked) :
    (s.left pending o).dueNext m = s.prepare.heldBack s.prepare.store (s.readied o) := by
  rw [Tracked.dueNext_of_queued m (by rw [left_eq]), left_eq]

theorem mem_dueNext_of_mem_heldBack {o : Tracked} {d : Trigger}
    (hd : d ∈ s.prepare.heldBack s.prepare.store (s.readied o)) : d ∈ o.dueNext s.matcher := by
  have due := (List.mem_filter.mp hd).1
  rw [readied_eq] at due
  exact due

/-- **A pass holds back what is not ready, and publishes the rest**, if guards are apart. -/
theorem exists_objects_pass (c : s.Chronicle calls) (h : s.Apart) :
    ∃ pending : Tracked → List Nat,
      s.pass.1.objects = s.objects.map fun o => s.left (pending o) o := by
  refine ⟨fun o => (s.prepare.publish.1.judgement
    { s.readied o with due := s.prepare.heldBack s.prepare.store (s.readied o) }).pending, ?_⟩
  rw [pass_fst, judge, objects_publish h.prepare, objects_prepare c.distinct]
  simp only [List.map_map, Function.comp_def]
  rfl

/-- A pass publishes what it establishes, and then what it withdraws. -/
theorem log_pass (s : Session) :
    s.pass.1.store.log = s.store.log ++ s.prepare.established ++ s.prepare.withdrawn := by
  have withdrawn : s.prepare.withdrawn.map (fun f => { f with negated := true }) =
      s.prepare.withdrawn := by
    refine List.map_congr_left (g := fun f => f) (fun f hf => ?_) |>.trans (List.map_id' _)
    have := s.prepare.publication_grows.negative f hf
    cases f
    cases this
    rfl
  rw [store_pass, store_prepare, FactStore.retractAll, withdrawn, FactStore.log_publishAll,
    FactStore.log_publishAll]

/-- The log grows by the facts that are published. -/
theorem mem_log_pass (s : Session) (f : Fact) :
    f ∈ s.pass.1.store.log ↔ f ∈ s.store.log ∨ s.prepare.Publishes f := by
  rw [log_pass, List.mem_append, List.mem_append, or_assoc, publishes_iff]

/-! ## The invariant -/

/-- A due effect yields the fact against the store as it is. -/
def Gives (t : Session) (f : Fact) : Prop :=
  ∃ a ∈ t.objects, ∃ d ∈ a.due, f ∈ t.yields (t.waitingVars a.id) t.store a d

theorem publishes_iff_gives (h : s.Apart) (f : Fact) : s.Publishes f ↔ s.Gives f :=
  publishes_iff_of_apart h f

/-- The object as it is in the session that has all the answers. -/
structure Matches (m : Matcher) (a o : Tracked) : Prop where
  id : a.id = o.id
  self : a.self = o.self
  rule : a.rule = o.rule
  calls : a.calls = o.calls ++ o.queued
  due : ∀ d ∈ o.dueNext m, d ∈ a.due

/-- An object without calls, which has come too late to bring anything about. -/
structure Idler (o : Tracked) : Prop where
  calls : o.calls = []
  queued : o.queued = []
  due : o.due = []

theorem Idler.dueNext {o : Tracked} (h : Idler o) (m : Matcher) : o.dueNext m = [] := by
  rw [Tracked.dueNext_of_queued m h.queued, h.due]

/-- The run is on its way to what `t` gives. -/
structure Course (t u : Session) : Prop where
  origin : ∀ o ∈ u.objects, (∃ a ∈ t.objects, Matches u.matcher a o) ∨ Idler o
  log : ∀ f ∈ u.store.log, t.Gives f
  due : ∀ a ∈ t.objects, ∀ d ∈ a.due, ∀ f ∈ t.yields (t.waitingVars a.id) t.store a d,
    f ∈ u.store.log ∨ ∃ o ∈ u.objects, a.id = o.id ∧ d ∈ o.dueNext u.matcher

/-! ## Between passes -/

/-- The operation observes a call. -/
def Op.isObserve : Op → Bool
  | .observe _ _ => true
  | _ => false

/-- Without calls observed, objects only have values bound between passes. -/
theorem exists_objects_perform (s : Session) {op : Op} (hop : op ≠ .pass)
    (hobserve : op.isObserve = false) :
    ∃ (bound : Tracked → List Binding) (fresh : List Tracked),
      (s.perform op).objects = (s.objects.map fun o => { o with bindings := bound o }) ++ fresh ∧
        ∀ o ∈ fresh, Idler o := by
  have same : ∀ {u : Session}, u.objects = s.objects →
      ∃ (bound : Tracked → List Binding) (fresh : List Tracked),
        u.objects = (s.objects.map fun o => { o with bindings := bound o }) ++ fresh ∧
          ∀ o ∈ fresh, Idler o := by
    intro u hu
    refine ⟨Tracked.bindings, [], ?_, by simp⟩
    rw [hu, List.append_nil]
    exact (List.map_id' _).symm
  cases op with
  | track id self className =>
    cases hr : s.rules.get? className with
    | none => exact same (by simp [perform, track, hr, Except.toOption])
    | some rule =>
      cases ht : s.tracks id with
      | true => exact same (by simp [perform, track, hr, ht, Except.toOption])
      | false =>
        have objects : (s.perform (.track id self className)).objects =
            s.objects ++ [.start id self rule] := by
          simp [perform, track, hr, ht, Except.toOption]
        refine ⟨Tracked.bindings, [.start id self rule], ?_, fun o ho => ?_⟩
        · rw [objects]
          exact congrArg (· ++ _) (List.map_id' _).symm
        · rw [List.mem_singleton.mp ho]
          exact ⟨rfl, rfl, rfl⟩
  | observe id call => cases hobserve
  | bind id b =>
    simp only [perform, Session.bind]
    split
    · exact same rfl
    · refine ⟨fun o => (if o.id == id then o.bind b else o).bindings, [], ?_, by simp⟩
      rw [List.append_nil]
      refine List.map_congr_left fun o _ => ?_
      by_cases hc : (o.id == id) = true
      · simp only [hc, ↓reduceIte]
        exact o.bind_eq b
      · simp only [hc, Bool.false_eq_true, ↓reduceIte]
  | supply q values => exact same rfl
  | resolveAll answer? =>
    obtain ⟨registry, inbox, he⟩ := s.resolveAll_eq answer?
    simp only [perform, he]
    exact same rfl
  | pass => exact absurd rfl hop

/-- Between passes the run stays on its way. -/
theorem Course.perform (h : t.Course u) {op : Op} (hop : op ≠ .pass)
    (hobserve : op.isObserve = false) : t.Course (u.perform op) := by
  obtain ⟨bound, fresh, hobjects, hfresh⟩ := u.exists_objects_perform hop hobserve
  have matcher : (u.perform op).matcher = u.matcher := matcher_eq_of_frame (u.frame_perform op)
  have store := u.store_perform hop
  refine ⟨fun o' ho' => ?_, by rw [store]; exact h.log, fun a ha d hd f hf => ?_⟩
  · rw [hobjects] at ho'
    rw [matcher]
    rcases List.mem_append.mp ho' with ho' | ho'
    · obtain ⟨o, ho, rfl⟩ := List.mem_map.mp ho'
      rcases h.origin o ho with ⟨a, ha, m⟩ | idler
      · exact .inl ⟨a, ha, m.id, m.self, m.rule, m.calls, m.due⟩
      · exact .inr ⟨idler.calls, idler.queued, idler.due⟩
    · exact .inr (hfresh o' ho')
  · rw [store, matcher]
    refine (h.due a ha d hd f hf).imp_right ?_
    rintro ⟨o, ho, hid, hdue⟩
    refine ⟨{ o with bindings := bound o }, ?_, hid, hdue⟩
    rw [hobjects]
    exact List.mem_append_left _ (List.mem_map_of_mem ho)

/-! ## Passes -/

/-- Rules under which an answer cannot come too late: guards look up nothing that effects
establish, and read only what the effects mention. -/
structure Patient (s : Session) : Prop where
  apart : s.Apart
  overt : ∀ o ∈ s.objects, ∀ e ∈ o.rule.effects, e.Overt

/-- A pass of the run at its publication, as it sees the session with all the answers. -/
structure Approach (t u : Session) (calls : String → List Call) (answers more : Answers)
    (direct : String → Binding → Prop) : Prop where
  chronicle : u.Chronicle calls
  patient : u.Patient
  apart : t.Apart
  ahead : u.prepare.Ahead t answers more direct
  same : ∀ o ∈ u.objects, ∀ name ∈ o.rule.guardNames, u.store.Same t.store name

variable {answers more : Answers} {direct : String → Binding → Prop}

theorem Matches.twin {m : Matcher} {a o : Tracked} (h : Matches m a o) :
    (u.readied o).Twin a := by
  rw [readied_eq]
  exact ⟨h.id.symm, h.self.symm, h.rule.symm, h.calls.symm⟩

section Pass

variable (h : t.Course u) (ap : Approach t u calls answers more direct)
include ap

theorem Approach.mem_readied {o : Tracked} (ho : o ∈ u.objects) :
    u.readied o ∈ u.prepare.objects := by
  rw [objects_prepare ap.chronicle.distinct]
  exact List.mem_map_of_mem ho

/-- An effect of the run comes to what it does with all the answers, or is held back. -/
theorem Approach.deferred_or_fate_eq {a o : Tracked} (ha : a ∈ t.objects) (ho : o ∈ u.objects)
    (m : Matches u.matcher a o) (d : Trigger) :
    u.prepare.fate (u.prepare.waitingVars (u.readied o).id) u.prepare.store (u.readied o) d =
        .deferred ∨
      u.prepare.fate (u.prepare.waitingVars (u.readied o).id) u.prepare.store (u.readied o) d =
        t.fate (t.waitingVars a.id) t.store a d := by
  refine ap.ahead.deferred_or_fate_eq (ap.mem_readied ho) ha m.twin ?_ ?_ d
  · rw [rule_readied]
    exact ap.patient.overt o ho
  · rw [rule_readied, store_prepare]
    exact ap.same o ho

/-- With all the answers known, it comes to just that. -/
theorem Approach.fate_eq
    (hknown : ∀ q values, more.first? q = some values → answers.first? q = some values)
    {a o : Tracked} (ha : a ∈ t.objects) (ho : o ∈ u.objects) (m : Matches u.matcher a o)
    (d : Trigger) :
    u.prepare.fate (u.prepare.waitingVars (u.readied o).id) u.prepare.store (u.readied o) d =
      t.fate (t.waitingVars a.id) t.store a d := by
  refine ap.ahead.fate_eq_of_same hknown (ap.mem_readied ho) ha m.twin ?_ ?_ d
  · rw [rule_readied]
    exact ap.patient.overt o ho
  · rw [rule_readied, store_prepare]
    exact ap.same o ho

/-- What is given is published in the pass, or its effect is held back. -/
theorem Approach.publishes_or_heldBack {a o : Tracked} (ha : a ∈ t.objects) (ho : o ∈ u.objects)
    (m : Matches u.matcher a o) {d : Trigger} (hd : d ∈ o.dueNext u.matcher) {f : Fact}
    (hf : f ∈ t.yields (t.waitingVars a.id) t.store a d) :
    u.prepare.Publishes f ∨ d ∈ u.prepare.heldBack u.prepare.store (u.readied o) := by
  have due : d ∈ (u.readied o).due := by
    rw [readied_eq]
    exact hd
  rcases ap.deferred_or_fate_eq ha ho m d with hfate | hfate
  · exact .inr (List.mem_filter.mpr ⟨due, decide_eq_true hfate⟩)
  · refine .inl ((publishes_iff_gives ap.patient.apart.prepare f).mpr
      ⟨u.readied o, ap.mem_readied ho, d, due, ?_⟩)
    unfold yields at hf ⊢
    rwa [hfate]

include h

/-- The object of the run that has an effect of `t` due is the object of that effect. -/
theorem Approach.matches_of_due {a o : Tracked} (ha : a ∈ t.objects) (ho : o ∈ u.objects)
    (hid : a.id = o.id) {d : Trigger} (hd : d ∈ o.dueNext u.matcher) : Matches u.matcher a o := by
  rcases h.origin o ho with ⟨a', ha', m⟩ | idler
  · have : a' = a := List.inj_on_of_nodup_map ap.ahead.distinct' ha' ha (m.id.trans hid.symm)
    exact this ▸ m
  · rw [idler.dueNext] at hd
    cases hd

/-- What a pass of the run publishes comes from an effect that is due in both. -/
theorem Approach.exists_of_publishes {f : Fact} (hf : u.prepare.Publishes f) :
    ∃ o ∈ u.objects, ∃ a ∈ t.objects, ∃ d ∈ o.dueNext u.matcher, Matches u.matcher a o ∧
      f ∈ t.yields (t.waitingVars a.id) t.store a d := by
  obtain ⟨r, hr, d, hd, hf⟩ := (publishes_iff_gives ap.patient.apart.prepare f).mp hf
  rw [objects_prepare ap.chronicle.distinct] at hr
  obtain ⟨o, ho, rfl⟩ := List.mem_map.mp hr
  have due : d ∈ o.dueNext u.matcher := by
    rw [readied_eq] at hd
    exact hd
  rcases h.origin o ho with ⟨a, ha, m⟩ | idler
  · refine ⟨o, ho, a, ha, d, due, m, ?_⟩
    unfold yields at hf ⊢
    rcases ap.deferred_or_fate_eq ha ho m d with hfate | hfate
    · rw [hfate] at hf
      cases hf
    · rwa [hfate] at hf
  · rw [idler.dueNext] at due
    cases due

theorem Approach.gives_of_publishes {f : Fact} (hf : u.prepare.Publishes f) : t.Gives f := by
  obtain ⟨_, _, a, ha, d, due, m, hf⟩ := ap.exists_of_publishes h hf
  exact ⟨a, ha, d, m.due d due, hf⟩

/-- **A pass keeps the run on its way.** -/
theorem Course.pass : t.Course u.pass.1 := by
  obtain ⟨pending, hobjects⟩ := exists_objects_pass ap.chronicle ap.patient.apart
  refine ⟨fun o' ho' => ?_, fun f hf => ?_, fun a ha d hd f hf => ?_⟩
  · rw [hobjects] at ho'
    obtain ⟨o, ho, rfl⟩ := List.mem_map.mp ho'
    rcases h.origin o ho with ⟨a, ha, m⟩ | idler
    · refine .inl ⟨a, ha, ?_, ?_, ?_, ?_, fun d hd => m.due d ?_⟩
      · rw [left_eq]
        exact m.id
      · rw [left_eq]
        exact m.self
      · rw [left_eq]
        exact m.rule
      · rw [left_eq]
        exact m.calls.trans (List.append_nil _).symm
      · rw [dueNext_left] at hd
        exact mem_dueNext_of_mem_heldBack hd
    · refine .inr ⟨?_, ?_, ?_⟩
      · rw [left_eq, idler.calls, idler.queued]
        rfl
      · rw [left_eq]
      · refine List.eq_nil_iff_forall_not_mem.mpr fun d hd => ?_
        rw [left_eq] at hd
        have next := mem_dueNext_of_mem_heldBack hd
        rw [idler.dueNext] at next
        cases next
  · rcases (u.mem_log_pass f).mp hf with hf | hf
    · exact h.log f hf
    · exact ap.gives_of_publishes h hf
  · rw [mem_log_pass]
    rcases h.due a ha d hd f hf with hlog | ⟨o, ho, hid, hnext⟩
    · exact .inl (.inl hlog)
    · have m := ap.matches_of_due h ha ho hid hnext
      rcases ap.publishes_or_heldBack ha ho m hnext hf with hp | hback
      · exact .inl (.inr hp)
      · refine .inr ⟨u.left (pending o) o, ?_, ?_, ?_⟩
        · rw [hobjects]
          exact List.mem_map_of_mem ho
        · rw [left_eq]
          exact hid
        · rw [dueNext_left]
          exact hback

/-- With all the answers known, the effects that a pass holds back give nothing. -/
theorem Course.yields_of_due_pass
    (hknown : ∀ q values, more.first? q = some values → answers.first? q = some values)
    {a o' : Tracked} (ha : a ∈ t.objects) (ho' : o' ∈ u.pass.1.objects) (hid : a.id = o'.id)
    {d : Trigger} (hd : d ∈ o'.dueNext u.pass.1.matcher) :
    t.yields (t.waitingVars a.id) t.store a d = [] := by
  obtain ⟨pending, hobjects⟩ := exists_objects_pass ap.chronicle ap.patient.apart
  rw [hobjects] at ho'
  obtain ⟨o, ho, rfl⟩ := List.mem_map.mp ho'
  rw [dueNext_left] at hd
  have m := ap.matches_of_due h ha ho (hid.trans (u.id_readied o)) (mem_dueNext_of_mem_heldBack hd)
  unfold yields
  rw [← ap.fate_eq hknown ha ho m d, of_decide_eq_true (List.mem_filter.mp hd).2]

/-- **A pass that knows all the answers publishes all that is left of what is given.** -/
theorem Course.log_pass_iff
    (hknown : ∀ q values, more.first? q = some values → answers.first? q = some values)
    (f : Fact) : f ∈ u.pass.1.store.log ↔ t.Gives f := by
  have after := h.pass ap
  constructor
  · exact after.log f
  · rintro ⟨a, ha, d, hd, hf⟩
    refine (after.due a ha d hd f hf).resolve_right ?_
    rintro ⟨o', ho', hid, hnext⟩
    rw [h.yields_of_due_pass ap hknown ha ho' hid hnext] at hf
    cases hf

end Pass

end Session

end Misuse
