import Misuse.Proofs.Answers
import Misuse.Proofs.Course

/-!
# From the first pass on

Where the calls of a script are observed and no pass has run, all the answers that are still
to come can be given at once (`answered`), and the rest of the script is on its way to what
that session gives (`Outset.course_run`), whenever the answers really come. That needs the
rules that are in use at the end of the script, since objects may be tracked between passes
(`Within`), and that values are bound directly to other variables only (`Aside`).
-/

namespace Misuse.Session

variable {r s t u f : Session} {calls : String → List Call}

/-! ## Which rules are in use -/

/-- The objects that are tracked, with their rules. -/
def roll (s : Session) : List (String × Rule) := s.objects.map fun o => (o.id, o.rule)

/-- The operation tracks an object. -/
def Op.isTrack : Op → Bool
  | .track _ _ _ => true
  | _ => false

theorem roll_update (s : Session) (id : String) {g : Tracked → Tracked}
    (hg : ∀ o, (g o).id = o.id ∧ (g o).rule = o.rule) : (s.update id g).roll = s.roll := by
  unfold roll update
  rw [List.map_map]
  refine List.map_congr_left fun o _ => ?_
  simp only [Function.comp_apply]
  split
  · rw [(hg o).1, (hg o).2]
  · rfl

theorem roll_perform (s : Session) {op : Op} (hop : op.isTrack = false) :
    (s.perform op).roll = s.roll := by
  cases op with
  | track id self className => cases hop
  | observe id call =>
    simp only [perform, observe]
    split
    · exact s.roll_update id fun o => ⟨rfl, rfl⟩
    · rfl
  | bind id b =>
    simp only [perform, Session.bind]
    split
    · rfl
    · exact s.roll_update id fun o => by rw [Tracked.bind_eq]; exact ⟨rfl, rfl⟩
  | supply q values => rfl
  | resolveAll answer? =>
    obtain ⟨registry, inbox, he⟩ := s.resolveAll_eq answer?
    simp only [perform, he]
    rfl
  | pass =>
    have h := congrArg (List.map fun o : Tracked => (o.id, o.rule)) s.settled_pass
    simpa [perform, roll, List.map_map, Function.comp_def, Tracked.settled, advanced,
      Tracked.applyQueued_eq] using h

theorem roll_track (s : Session) (id self className : String) :
    (s.perform (.track id self className)).roll =
      match s.rules.get? className with
      | none => s.roll
      | some rule => if id ∈ s.roll.map Prod.fst then s.roll else s.roll ++ [(id, rule)] := by
  have known : s.tracks id = true ↔ id ∈ s.roll.map Prod.fst := by
    rw [tracks_eq_true_iff, roll, List.map_map]
    rfl
  cases hr : s.rules.get? className with
  | none => simp [perform, track, hr, Except.toOption]
  | some rule =>
    by_cases ht : s.tracks id = true
    · simp [perform, track, hr, ht, known.mp ht, Except.toOption]
    · have fresh : s.roll ++ [(id, rule)] =
          ({ s with objects := s.objects ++ [.start id self rule] } : Session).roll := by
        simp [roll, Tracked.start]
      simp only [mt known.mpr ht, ↓reduceIte, fresh]
      simp [perform, track, hr, ht, Except.toOption]

/-- Only the operations that track objects bear on the rules in use. -/
theorem roll_run (hroll : s.roll = t.roll) (hrules : s.rules = t.rules) (ops : List Op) :
    (s.run ops).roll = (t.run (ops.filter Op.isTrack)).roll := by
  induction ops generalizing s t with
  | nil => exact hroll
  | cons op ops ih =>
    cases hop : op.isTrack with
    | false =>
      rw [run_cons, List.filter_cons, hop]
      exact ih ((s.roll_perform hop).trans hroll) ((s.rules_perform op).trans hrules)
    | true =>
      rw [run_cons, List.filter_cons, hop, if_pos rfl, run_cons]
      refine ih ?_ (by rw [rules_perform, rules_perform, hrules])
      cases op with
      | track id self className => rw [roll_track, roll_track, hroll, hrules]
      | _ => cases hop

/-- Every object is one of the other session, under the same rule. -/
def Within (u f : Session) : Prop := ∀ o ∈ u.objects, ∃ a ∈ f.objects, a.id = o.id ∧ a.rule = o.rule

theorem Keeps.within (h : u.Keeps f) : u.Within f := by
  intro o ho
  obtain ⟨a, ha, grown⟩ := h o ho
  exact ⟨a, ha, grown.id, grown.rule⟩

theorem Within.trans (h : s.Within u) (h' : u.Within f) : s.Within f := by
  intro o ho
  obtain ⟨a, ha, hid, hrule⟩ := h o ho
  obtain ⟨b, hb, hid', hrule'⟩ := h' a ha
  exact ⟨b, hb, hid'.trans hid, hrule'.trans hrule⟩

theorem within_of_roll (h : u.roll = f.roll) : u.Within f := by
  intro o ho
  have : (o.id, o.rule) ∈ f.roll := h ▸ List.mem_map_of_mem ho
  obtain ⟨a, ha, he⟩ := List.mem_map.mp this
  exact ⟨a, ha, congrArg Prod.fst he, congrArg Prod.snd he⟩

theorem within_run {ops ops' : List Op} (h : ops.filter Op.isTrack = ops'.filter Op.isTrack) :
    (r.run ops).Within (r.run ops') := by
  refine within_of_roll ?_
  rw [roll_run rfl rfl ops, roll_run rfl rfl ops', h]

/-- What is tracked by the end was tracked before the last operation, or is new. -/
theorem Within.of_concat {ops : List Op} {op : Op} (h : (r.run (ops ++ [op])).Within f) :
    (r.run ops).Within f := by
  rw [run_concat] at h
  exact ((r.run ops).keeps_perform op).within.trans h

theorem Patient.within (h : f.Patient) (hw : u.Within f) : u.Patient := by
  refine ⟨fun o ho o' ho' => ?_, fun o ho => ?_⟩
  · obtain ⟨a, ha, -, hrule⟩ := hw o ho
    obtain ⟨a', ha', -, hrule'⟩ := hw o' ho'
    rw [← hrule, ← hrule']
    exact h.apart a ha a' ha'
  · obtain ⟨a, ha, -, hrule⟩ := hw o ho
    rw [← hrule]
    exact h.overt a ha

/-- What is bound directly is of no variable that effects of the object mention. -/
def Aside (f : Session) (ops : List Op) : Prop :=
  ∀ id b, Op.bind id b ∈ ops → ∀ o ∈ f.objects, o.id = id → ∀ e ∈ o.rule.effects,
    b.var ∉ e.mentions

/-! ## Towards what all answers give -/

/-- The session that has all the answers, ready to publish. -/
def answered (r : Session) (all : Answers) : Session := (r.supplyAll all).prepare

/-- Where a script starts with its calls observed, and what is asked of the rest of it. -/
structure Outset (r f : Session) (calls : String → List Call) (base all : Answers) : Prop where
  chronicle : r.Chronicle calls
  ledger : r.Ledger base r.Holds
  keyed : r.registry.Keyed
  store : r.store = .empty
  within : r.Within f
  patient : f.Patient

namespace Outset

variable {base all : Answers} (h : Outset r f calls base all)
include h

theorem within_answered : (r.answered all).Within f := by
  have keeps : (r.answered all).Within r := by
    intro o ho
    rw [answered, objects_prepare (h.chronicle.supplyAll all).distinct] at ho
    obtain ⟨a, ha, rfl⟩ := List.mem_map.mp ho
    rw [objects_supplyAll] at ha
    exact ⟨a, ha, by rw [readied_eq], by rw [readied_eq]⟩
  exact keeps.trans h.within

theorem agrees : r.store.Agrees := by
  rw [h.store]
  exact FactStore.agrees_empty

/-- What is given comes from the effects of tracked objects. -/
theorem mem_factsOf_of_gives {fact : Fact} (hf : (r.answered all).Gives fact) :
    ∃ a ∈ f.objects, ∃ view cap d, fact ∈ a.rule.factsOf view cap d := by
  obtain ⟨o, ho, d, -, hy⟩ := hf
  obtain ⟨a, ha, -, hrule⟩ := h.within_answered o ho
  exact ⟨a, ha, _, _, d, hrule ▸ mem_factsOf_of_mem_yields hy⟩

/-- What guards look up stays as it is. -/
theorem same {ops : List Op} (hw : (r.run ops).Within f)
    (course : (r.answered all).Course (r.run ops)) :
    ∀ o ∈ (r.run ops).objects, ∀ name ∈ o.rule.guardNames,
      (r.run ops).store.Same (r.answered all).store name := by
  intro o ho name hn args
  obtain ⟨a, ha, -, hrule⟩ := hw o ho
  have absent : ∀ fact ∈ (r.run ops).store.log, fact.negated = false → fact.name ≠ name := by
    rintro fact hfact hneg rfl
    obtain ⟨b, hb, view, cap, d, hmem⟩ := h.mem_factsOf_of_gives (course.log fact hfact)
    exact h.patient.apart a ha b hb fact.name (hrule ▸ hn)
      (Rule.name_mem_establishedNames hmem hneg)
  have store : (r.answered all).store = .empty := by
    rw [answered, store_prepare, store_supplyAll, h.store]
  rw [(agrees_run h.agrees ops).query_of_absent absent, store,
    FactStore.agrees_empty.query_of_absent (by simp [FactStore.empty])]

/-- A run that knows some of the answers is behind the session that has them all. -/
theorem ahead {ops : List Op} (haside : Aside f ops)
    (hknown : ∀ q values, (base ++ r.answers ops).first? q = some values →
      (base ++ all).first? q = some values) :
    (r.run ops).prepare.Ahead (r.answered all) (base ++ r.answers ops) (base ++ all)
      fun id b => r.Holds id b ∨ .bind id b ∈ ops := by
  have chronicle := h.chronicle.run ops
  have ledger := h.ledger.run h.chronicle ops
  have chronicle' := h.chronicle.supplyAll all
  have keeps : r.Keeps (r.run ops).prepare :=
    (r.keeps_run ops).trans (keeps_prepare chronicle.distinct)
  have keeps' : r.Keeps (r.answered all) :=
    (run_supplies r all ▸ r.keeps_run (supplies all)).trans (keeps_prepare chronicle'.distinct)
  refine
    { frame := ?_
      ledger := ledger.prepare chronicle
      ledger' := ?_
      inbox := by rw [prepare_eq]
      inbox' := by rw [answered, prepare_eq]
      keyed := keyed_prepare (keyed_run h.keyed ops)
      keyed' := keyed_prepare (keyed_supplyAll h.keyed all)
      distinct := chronicle.distinct_prepare
      distinct' := chronicle'.distinct_prepare
      known := hknown
      shared := ?_ }
  · rw [frame_prepare, frame_run, answered, frame_prepare, frame_supplyAll]
  · exact ((h.ledger.supplyAll all).prepare chronicle').rebase fun _ _ _ _ => .inl
  · intro o ho o' ho' twin b hd e he hv
    rcases hd with hd | hd
    · exact ⟨keeps.mem_bindings_of_holds chronicle.distinct_prepare ho hd,
        keeps'.mem_bindings_of_holds chronicle'.distinct_prepare ho' (twin.id ▸ hd)⟩
    · obtain ⟨a, ha, hid, hrule⟩ := h.within_answered o' ho'
      have mentioned : e ∈ a.rule.effects := by
        rw [hrule, ← twin.rule]
        exact he
      exact absurd hv (haside o.id b hd a ha (hid.trans twin.id.symm) e mentioned)

theorem approach {ops : List Op} (hw : (r.run ops).Within f) (haside : Aside f ops)
    (hknown : ∀ q values, (base ++ r.answers ops).first? q = some values →
      (base ++ all).first? q = some values)
    (course : (r.answered all).Course (r.run ops)) :
    Approach (r.answered all) (r.run ops) (fun id => calls id ++ r.observed id ops)
      (base ++ r.answers ops) (base ++ all) fun id b => r.Holds id b ∨ .bind id b ∈ ops where
  chronicle := h.chronicle.run ops
  patient := h.patient.within hw
  apart := (h.patient.within h.within_answered).apart
  ahead := h.ahead haside hknown
  same := h.same hw course

/-- At the outset everything is still due. -/
theorem course : (r.answered all).Course r := by
  have objects : (r.answered all).objects = r.objects.map (r.supplyAll all).readied := by
    rw [answered, objects_prepare (h.chronicle.supplyAll all).distinct, objects_supplyAll]
  refine ⟨fun o ho => .inl ⟨(r.supplyAll all).readied o, ?_, ?_⟩, ?_, ?_⟩
  · rw [objects]
    exact List.mem_map_of_mem ho
  · rw [readied_eq, matcher_supplyAll]
    exact ⟨rfl, rfl, rfl, rfl, fun _ hd => hd⟩
  · rw [h.store]
    simp [FactStore.empty]
  · intro a ha d hd fact _
    rw [objects] at ha
    obtain ⟨o, ho, rfl⟩ := List.mem_map.mp ha
    rw [readied_eq, matcher_supplyAll] at hd
    exact .inr ⟨o, ho, id_readied _ o, hd⟩

/-- **A run without calls is on its way to what all the answers give.** -/
theorem course_run {ops : List Op} (hops : ∀ op ∈ ops, op.isObserve = false)
    (hw : (r.run ops).Within f) (haside : Aside f ops)
    (hknown : ∀ q values, (base ++ r.answers ops).first? q = some values →
      (base ++ all).first? q = some values) :
    (r.answered all).Course (r.run ops) := by
  induction ops using List.reverseRecOn with
  | nil => exact h.course
  | append_singleton ops op ih =>
    obtain ⟨earlier, hop⟩ := List.forall_mem_append.mp hops
    have within := hw.of_concat
    have aside : Aside f ops := fun id b hb => haside id b (List.mem_append_left _ hb)
    have known : ∀ q values, (base ++ r.answers ops).first? q = some values →
        (base ++ all).first? q = some values := by
      intro q values hq
      refine hknown q values ?_
      rw [answers_append, ← List.append_assoc]
      exact Answers.first?_append_of_some hq _
    have course := ih earlier within aside known
    rw [run_concat]
    by_cases pass : op = .pass
    · subst pass
      exact course.pass (h.approach within aside known course)
    · exact course.perform pass (hop op (List.mem_singleton_self op))

end Outset

end Misuse.Session
