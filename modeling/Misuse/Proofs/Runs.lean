import Misuse.Proofs.Publication

/-!
# Runs of a session

The operations on a session and what a list of them leads to; one that fails changes
nothing. Objects are never lost, keep their rules, and none is tracked twice. Between
passes calls are queued with their objects (`between_perform`), and a pass applies them
(`settled_pass`). `observed` tells from a run alone which calls were observed on an object.
-/

namespace Misuse.Session

/-- What can be done with a session. -/
inductive Op where
  | track (id self className : String)
  | observe (id : String) (call : Call)
  | bind (id : String) (b : Binding)
  | supply (q : Query) (values : List Value)
  | resolveAll (answer? : Query → Option (List Value))
  | pass

/-- The session after an operation: the same one if the operation fails. -/
def perform (s : Session) : Op → Session
  | .track id self className => (s.track id self className).toOption.getD s
  | .observe id call => (s.observe id call).toOption.getD s
  | .bind id b => ((s.bind id b).toOption.map Prod.fst).getD s
  | .supply q values => (s.supply q values).1
  | .resolveAll answer? => s.resolveAll answer?
  | .pass => s.pass.1

def run (s : Session) (ops : List Op) : Session := ops.foldl perform s

@[simp] theorem run_nil (s : Session) : s.run [] = s := rfl

theorem run_cons (s : Session) (op : Op) (ops : List Op) :
    s.run (op :: ops) = (s.perform op).run ops := rfl

theorem run_append (s : Session) (ops more : List Op) :
    s.run (ops ++ more) = (s.run ops).run more := List.foldl_append ..

theorem run_concat (s : Session) (ops : List Op) (op : Op) :
    s.run (ops ++ [op]) = (s.run ops).perform op := s.run_append ops [op]

/-- The calls an operation has observed on an object. -/
def callsOn (s : Session) (id : String) : Op → List Call
  | .observe id' call => if id' = id ∧ s.tracks id = true then [call] else []
  | _ => []

/-- The calls a run has observed on an object, in order. -/
def observed (s : Session) (id : String) : List Op → List Call
  | [] => []
  | op :: ops => s.callsOn id op ++ (s.perform op).observed id ops

/-! ## Tracking -/

theorem tracks_eq_true_iff (s : Session) (id : String) :
    s.tracks id = true ↔ id ∈ s.objects.map Tracked.id := by
  simp [tracks, object?, List.find?_isSome]

theorem tracks_of_mem {s : Session} {o : Tracked} (h : o ∈ s.objects) : s.tracks o.id = true :=
  (s.tracks_eq_true_iff o.id).mpr (List.mem_map.mpr ⟨o, h, rfl⟩)

theorem callsOn_eq_nil {s : Session} {id : String} (h : s.tracks id = false) (op : Op) :
    s.callsOn id op = [] := by
  cases op <;> simp [callsOn, h]

/-! ## Operations other than passes -/

theorem resolveAll_eq (s : Session) (answer? : Query → Option (List Value)) :
    ∃ registry inbox, s.resolveAll answer? = { s with registry, inbox } := by
  unfold resolveAll
  generalize s.registry.pending = qs
  induction qs generalizing s with
  | nil => exact ⟨_, _, rfl⟩
  | cons q qs ih =>
    obtain ⟨registry, inbox, h⟩ := ih (s.supply q ((answer? q).getD [.unresolved])).1
    exact ⟨registry, inbox, h⟩

/-- An object that only has calls queued or values bound. -/
structure Queues (o o' : Tracked) (more : List Call) : Prop where
  id : o'.id = o.id
  rule : o'.rule = o.rule
  states : o'.states = o.states
  calls : o'.calls = o.calls
  queued : o'.queued = o.queued ++ more

theorem queues_self (o : Tracked) : Queues o o [] := ⟨rfl, rfl, rfl, rfl, by simp⟩

/-- Between passes objects queue calls, and one more may be tracked. -/
structure Between (s t : Session) (op : Op) (change : Tracked → Tracked) (fresh : List Tracked) :
    Prop where
  objects : t.objects = s.objects.map change ++ fresh
  queues : ∀ o ∈ s.objects, Queues o (change o) (s.callsOn o.id op)
  fresh : fresh = [] ∨ ∃ id self className rule, s.rules.get? className = some rule ∧
    s.tracks id = false ∧ fresh = [.start id self rule]

theorem between_of_same {s t : Session} {op : Op} (ht : t.objects = s.objects)
    (hc : ∀ id, s.callsOn id op = []) : Between s t op (fun o => o) [] :=
  ⟨by simp [ht], fun o _ => hc o.id ▸ queues_self o, .inl rfl⟩

theorem between_perform (s : Session) {op : Op} (h : op ≠ .pass) :
    ∃ change fresh, Between s (s.perform op) op change fresh := by
  cases op with
  | track id self className =>
    cases hrule : s.rules.get? className with
    | none =>
      exact ⟨_, _, between_of_same (by simp [perform, track, hrule, Except.toOption]) fun _ => rfl⟩
    | some rule =>
      cases hnew : s.tracks id with
      | true =>
        exact ⟨_, _, between_of_same (by simp [perform, track, hrule, hnew, Except.toOption])
          fun _ => rfl⟩
      | false =>
        refine ⟨fun o => o, [.start id self rule], ?_, fun o _ => queues_self o,
          .inr ⟨id, self, className, rule, hrule, hnew, rfl⟩⟩
        simp [perform, track, hrule, hnew, Except.toOption]
  | observe id call =>
    cases hid : s.tracks id with
    | false =>
      refine ⟨_, _, between_of_same (by simp [perform, observe, hid, Except.toOption])
        fun id' => ?_⟩
      by_cases hc : id = id'
      · simp [callsOn, ← hc, hid]
      · simp [callsOn, hc]
    | true =>
      refine ⟨fun o => if o.id == id then o.observe call else o, [], ?_, fun o ho => ?_, .inl rfl⟩
      · simp [perform, observe, hid, Except.toOption, update]
      · by_cases hc : id = o.id
        · simp only [hc, beq_self_eq_true, ↓reduceIte, callsOn, tracks_of_mem ho, and_self]
          exact ⟨rfl, rfl, rfl, rfl, rfl⟩
        · have : (o.id == id) = false := beq_eq_false_iff_ne.mpr (Ne.symm hc)
          simp only [this, Bool.false_eq_true, ↓reduceIte, callsOn, hc, false_and]
          exact queues_self o
  | bind id b =>
    cases hid : s.object? id with
    | none =>
      exact ⟨_, _, between_of_same (by simp [perform, bind, hid, Except.toOption]) fun _ => rfl⟩
    | some _ =>
      refine ⟨fun o => if o.id == id then o.bind b else o, [], ?_, fun o _ => ?_, .inl rfl⟩
      · simp [perform, bind, hid, Except.toOption, update]
      · simp only [callsOn]
        split
        · rw [Tracked.bind_eq]
          exact ⟨rfl, rfl, rfl, rfl, by simp⟩
        · exact queues_self o
  | supply q values => exact ⟨_, _, between_of_same rfl fun _ => rfl⟩
  | resolveAll answer? =>
    obtain ⟨registry, inbox, hr⟩ := s.resolveAll_eq answer?
    exact ⟨_, _, between_of_same (by simp [perform, hr]) fun _ => rfl⟩
  | pass => exact absurd rfl h

/-! ## Passes -/

/-- Publishing and judging bear on what is due and what is pending only. -/
theorem settled_pass_prepare (s : Session) :
    s.pass.1.objects.map Tracked.settled = s.prepare.objects.map Tracked.settled := by
  rw [pass_fst, settled_judge, settled_publish]

/-- A pass applies the queued calls of every object to it; bindings, effects that are due
and constraints that are pending aside. -/
theorem settled_pass (s : Session) :
    s.pass.1.objects.map Tracked.settled =
      s.objects.map fun o =>
        ((s.advanced o).object.receive (s.newQueries.flatMap s.registry.answersTo)).settled := by
  rw [settled_pass_prepare, prepare_eq]
  simp

theorem exists_of_mem_pass {s : Session} {o' : Tracked} (h : o' ∈ s.pass.1.objects) :
    ∃ o ∈ s.objects,
      o'.id = o.id ∧ o'.rule = o.rule ∧ o'.queued = [] ∧ o'.calls = o.calls ++ o.queued ∧
        o'.states = o.rule.statesAlong s.matcher o.id o.states o.queued := by
  have hm : o'.settled ∈ s.pass.1.objects.map Tracked.settled := List.mem_map.mpr ⟨o', h, rfl⟩
  rw [settled_pass] at hm
  obtain ⟨o, ho, he⟩ := List.mem_map.mp hm
  have field {β : Type} (f : Tracked → β) := congrArg f he.symm
  refine ⟨o, ho, ?_, ?_, ?_, ?_, ?_⟩
  · simpa [Tracked.settled, advanced, Tracked.applyQueued_eq] using field Tracked.id
  · simpa [Tracked.settled, advanced, Tracked.applyQueued_eq] using field Tracked.rule
  · simpa [Tracked.settled, advanced, Tracked.applyQueued_eq] using field Tracked.queued
  · simpa [Tracked.settled, advanced, Tracked.applyQueued_eq] using field Tracked.calls
  · simpa [Tracked.settled, advanced, Tracked.applyQueued_eq] using field Tracked.states

theorem ids_pass (s : Session) : s.pass.1.objects.map Tracked.id = s.objects.map Tracked.id := by
  have h := congrArg (List.map Tracked.id) s.settled_pass
  simpa [List.map_map, Function.comp_def, Tracked.settled, advanced, Tracked.applyQueued_eq] using h

theorem permanent_pass (s : Session) :
    s.pass.1.permanent =
      s.permanent.extend (s.objects.flatMap fun o => (s.advanced o).violations) := by
  rw [pass_fst, judge_publish, prepare_eq]

/-! ## What no operation changes -/

/-- The settings, the rules and the subtyping of a session. -/
def frame (s : Session) : Settings × Rulebook × Subtyping := (s.settings, s.rules, s.subtyping)

theorem frame_eq_iff {s t : Session} :
    s.frame = t.frame ↔
      s.settings = t.settings ∧ s.rules = t.rules ∧ s.subtyping = t.subtyping := by
  simp only [frame, Prod.mk.injEq]

theorem frame_prepare (s : Session) : s.prepare.frame = s.frame := by
  rw [prepare_eq]
  rfl

theorem frame_publish (s : Session) : s.publish.1.frame = s.frame := by
  rw [publish_fst]
  rfl

theorem frame_judge (s : Session) : s.judge.frame = s.frame := rfl

theorem frame_pass (s : Session) : s.pass.1.frame = s.frame := by
  rw [pass_fst, frame_judge, frame_publish, frame_prepare]

/-- Between passes only objects, queries and deliveries change. -/
theorem exists_perform_eq (s : Session) {op : Op} (h : op ≠ .pass) :
    ∃ objects registry inbox, s.perform op = { s with objects, registry, inbox } := by
  cases op with
  | track id self className =>
    simp only [perform, track]
    split
    · exact ⟨_, _, _, rfl⟩
    · split <;> exact ⟨_, _, _, rfl⟩
  | observe id call =>
    simp only [perform, observe]
    split <;> exact ⟨_, _, _, rfl⟩
  | bind id b =>
    simp only [perform, bind]
    split <;> exact ⟨_, _, _, rfl⟩
  | supply q values => exact ⟨_, _, _, rfl⟩
  | resolveAll answer? =>
    obtain ⟨registry, inbox, hr⟩ := s.resolveAll_eq answer?
    exact ⟨_, registry, inbox, hr⟩
  | pass => exact absurd rfl h

theorem store_perform (s : Session) {op : Op} (hop : op ≠ .pass) :
    (s.perform op).store = s.store := by
  obtain ⟨objects, registry, inbox, he⟩ := s.exists_perform_eq hop
  rw [he]

theorem store_run_of_ne_pass {s : Session} {ops : List Op} (h : ∀ op ∈ ops, op ≠ .pass) :
    (s.run ops).store = s.store := by
  induction ops generalizing s with
  | nil => rfl
  | cons op ops ih =>
    obtain ⟨hop, hops⟩ := List.forall_mem_cons.mp h
    rw [run_cons, ih hops, s.store_perform hop]

theorem frame_perform (s : Session) (op : Op) : (s.perform op).frame = s.frame := by
  by_cases h : op = .pass
  · subst h
    exact s.frame_pass
  · obtain ⟨objects, registry, inbox, he⟩ := s.exists_perform_eq h
    rw [he]
    rfl

theorem frame_run (s : Session) (ops : List Op) : (s.run ops).frame = s.frame := by
  induction ops generalizing s with
  | nil => rfl
  | cons op ops ih => exact (ih _).trans (s.frame_perform op)

theorem rules_pass (s : Session) : s.pass.1.rules = s.rules := (frame_eq_iff.mp s.frame_pass).2.1

theorem rules_perform (s : Session) (op : Op) : (s.perform op).rules = s.rules :=
  (frame_eq_iff.mp (s.frame_perform op)).2.1

theorem rules_run (s : Session) (ops : List Op) : (s.run ops).rules = s.rules :=
  (frame_eq_iff.mp (s.frame_run ops)).2.1

theorem matcher_eq_of_frame {s t : Session} (h : t.frame = s.frame) : t.matcher = s.matcher := by
  simp [matcher, frame_eq_iff.mp h]

/-- What a session starts with. -/
theorem eq_of_start {settings : Settings} {rules : Rulebook} {subtyping : Subtyping} {s : Session}
    (h : start settings rules subtyping = .ok s) :
    s =
      { settings, rules := rulesFor settings rules, subtyping
        registry := .empty, inbox := [], objects := [], store := .empty
        permanent := Report.empty.extend ((rulesFor settings rules).rejected.map .malformedRule)
        findings := .empty, passes := 0 } := by
  unfold start at h
  split at h
  · cases h
  · exact (Except.ok.inj h).symm

/-! ## Sessions at their start -/

/-- A session at its start, with a rulebook into which rules are inserted. -/
def startedWith (settings : Settings) (rules : List Rule) : Session :=
  let accepted := rulesFor settings (rules.foldl (fun b r => b.insert false r) .empty)
  { settings, rules := accepted, subtyping := exactTypes
    registry := .empty, inbox := [], objects := [], store := .empty
    permanent := Report.empty.extend (accepted.rejected.map .malformedRule)
    findings := .empty, passes := 0 }

/-- Rules with overlapping labels are refused. -/
def strictSettings : Settings :=
  { Preset.balanced.settings with typestate := ⟨true, true, true⟩ }

end Misuse.Session
