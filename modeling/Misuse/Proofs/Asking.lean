import Misuse.Proofs.Chronicle

/-!
# What is asked and answered

The queries that the calls of an object ask (`Tracked.emitted`), and the answers that a run
gives, of which the first one to a query counts (`Answers.first?`). Answers may also be given
one by one (`supplyAll`), as operations of their own (`supplies`).
-/

namespace Misuse

namespace Tracked

variable {o : Tracked}

/-! ## Emitted queries -/

/-- The queries that the applied calls of an object ask. -/
def emitted (m : Matcher) (o : Tracked) : List Query :=
  (o.rule.stepsAlong m o.id o.rule.automaton.initial o.calls).flatMap Step.queries

theorem object_of_mem_emitted {m : Matcher} {q : Query} (h : q ∈ o.emitted m) :
    q.object = o.id := by
  obtain ⟨step, hstep, hq⟩ := List.mem_flatMap.mp h
  obtain ⟨states, call, rfl⟩ := Rule.exists_advance_of_mem_stepsAlong hstep
  exact o.rule.object_of_mem_queries m o.id hq

end Tracked

/-! ## Answers -/

/-- Answers to queries, in the order in which they are given. -/
abbrev Answers := List (Query × List Value)

namespace Answers

/-- The answer that counts. -/
def first? (answers : Answers) (q : Query) : Option (List Value) :=
  (answers.find? fun a => a.1 == q).map Prod.snd

theorem first?_append (answers more : Answers) (q : Query) :
    (answers ++ more).first? q = (answers.first? q).or (more.first? q) := by
  simp only [first?, List.find?_append]
  cases answers.find? fun a => a.1 == q <;> rfl

theorem first?_append_of_some {answers : Answers} {q : Query} {values : List Value}
    (h : answers.first? q = some values) (more : Answers) :
    (answers ++ more).first? q = some values := by
  rw [first?_append, h]
  rfl

theorem first?_cons (a : Query × List Value) (answers : Answers) (q : Query) :
    first? (a :: answers) q = if a.1 = q then some a.2 else answers.first? q := by
  by_cases h : a.1 = q <;> simp [first?, h]

theorem first?_singleton (p q : Query) (values : List Value) :
    first? [(p, values)] q = if p = q then some values else none := by
  by_cases h : p = q <;> simp [first?, h]

end Answers

namespace Registry

theorem snd_resolve (r : Registry String) (q : Query) (values : List Value)
    {d : Delivery String} (h : d ∈ (r.resolve q values).2.1) :
    ∃ ls, r.status? q = some (.waiting ls) ∧ d.target ∈ ls ∧ d.binding = q.bind values := by
  unfold resolve at h
  split at h
  · cases h
  next ls hls =>
    obtain ⟨l, hl, rfl⟩ := List.mem_map.mp h
    exact ⟨ls, hls, hl, rfl⟩
  · cases h

theorem mem_snd_resolve {r : Registry String} {q : Query} {ls : List String}
    (h : r.status? q = some (.waiting ls)) {l : String} (hl : l ∈ ls) (values : List Value) :
    ⟨l, q.bind values⟩ ∈ (r.resolve q values).2.1 := by
  simp only [resolve, h]
  exact List.mem_map.mpr ⟨l, hl, rfl⟩

/-! ## Asking again and again -/

/-- What is known of a query after it is asked some times. -/
def askedAgain (st : Option (Status String)) (qs : List Query) : Option (Status String) :=
  qs.foldl (fun st q => some (askedStatus q.object st)) st

theorem askedAgain_eq_answered_iff (qs : List Query) (st : Option (Status String))
    (values : List Value) :
    askedAgain st qs = some (.answered values) ↔ st = some (.answered values) := by
  unfold askedAgain
  induction qs generalizing st with
  | nil => rfl
  | cons q qs ih =>
    rw [List.foldl_cons, ih, Option.some.injEq]
    cases st with
    | none => simp [askedStatus]
    | some known => cases known <;> simp [askedStatus]

theorem isSome_askedAgain (qs : List Query) (st : Option (Status String)) :
    (askedAgain st qs).isSome = true ↔ st.isSome = true ∨ qs ≠ [] := by
  unfold askedAgain
  induction qs generalizing st with
  | nil => simp
  | cons q qs ih => simp [ih]

/-- The listeners of a query are the object that asks it. -/
def Heard (q : Query) (st : Option (Status String)) : Prop :=
  ∀ ls, st = some (.waiting ls) → q.object ∈ ls ∧ ∀ l ∈ ls, l = q.object

theorem heard_askedStatus {q : Query} {st : Option (Status String)} (h : Heard q st) :
    Heard q (some (askedStatus q.object st)) := by
  intro ls hls
  rw [Option.some.injEq] at hls
  cases st with
  | none =>
    cases hls
    simp
  | some known =>
    cases known with
    | waiting before =>
      cases hls
      obtain ⟨-, hall⟩ := h before rfl
      refine ⟨by simp, fun l hl => ?_⟩
      rcases List.mem_append.mp hl with hl | hl
      · exact hall l hl
      · exact List.mem_singleton.mp hl
    | answered values => cases hls

theorem heard_askedAgain {q : Query} {qs : List Query} (hqs : ∀ p ∈ qs, p = q)
    {st : Option (Status String)} (h : Heard q st) : Heard q (askedAgain st qs) := by
  unfold askedAgain
  induction qs generalizing st with
  | nil => exact h
  | cons p qs ih =>
    obtain ⟨rfl, hqs⟩ := List.forall_mem_cons.mp hqs
    exact ih hqs (heard_askedStatus h)

end Registry

namespace Session

/-! ## Answers of a run -/

/-- The operation gives answers. -/
def Op.isAnswer : Op → Bool
  | .supply _ _ | .resolveAll _ => true
  | _ => false

/-- The answers that an operation gives, in order. -/
def answersGiven (s : Session) : Op → Answers
  | .supply q values => [(q, values)]
  | .resolveAll answer? => s.registry.pending.map fun q => (q, (answer? q).getD [.unresolved])
  | _ => []

/-- The answers that a run gives, in order. -/
def answers (s : Session) : List Op → Answers
  | [] => []
  | op :: ops => s.answersGiven op ++ (s.perform op).answers ops

theorem answers_append (s : Session) (ops more : List Op) :
    s.answers (ops ++ more) = s.answers ops ++ (s.run ops).answers more := by
  induction ops generalizing s with
  | nil => rfl
  | cons op ops ih =>
    rw [List.cons_append, answers, ih, answers, List.append_assoc]
    rfl

theorem answers_of_not_isAnswer (s : Session) {ops : List Op}
    (h : ∀ op ∈ ops, op.isAnswer = false) : s.answers ops = [] := by
  induction ops generalizing s with
  | nil => rfl
  | cons op ops ih =>
    obtain ⟨hop, hops⟩ := List.forall_mem_cons.mp h
    rw [answers, ih _ hops, List.append_nil]
    cases op with
    | supply q values => cases hop
    | resolveAll answer? => cases hop
    | _ => rfl

/-! ## Answers one by one -/

/-- Give several answers, one after the other. -/
def supplyAll (s : Session) (answers : Answers) : Session :=
  answers.foldl (fun s a => (s.supply a.1 a.2).1) s

theorem resolveAll_eq_supplyAll (s : Session) (answer? : Query → Option (List Value)) :
    s.resolveAll answer? = s.supplyAll (s.answersGiven (.resolveAll answer?)) := by
  simp [resolveAll, supplyAll, answersGiven, List.foldl_map]

/-- Operations that give the answers one by one. -/
def supplies (answers : Answers) : List Op := answers.map fun a => .supply a.1 a.2

theorem eq_supply_of_mem_supplies {answers : Answers} {op : Op} (h : op ∈ supplies answers) :
    ∃ q values, op = .supply q values := by
  obtain ⟨a, -, rfl⟩ := List.mem_map.mp h
  exact ⟨a.1, a.2, rfl⟩

theorem run_supplies (s : Session) (answers : Answers) :
    s.run (supplies answers) = s.supplyAll answers := by
  simp [run, supplies, supplyAll, List.foldl_map, perform]

theorem answers_supplies (s : Session) (answers : Answers) :
    s.answers (supplies answers) = answers := by
  induction answers generalizing s with
  | nil => rfl
  | cons a rest ih =>
    rw [supplies, List.map_cons, Session.answers]
    exact congrArg (a :: ·) (ih _)

theorem supplyAll_cons (s : Session) (a : Query × List Value) (answers : Answers) :
    s.supplyAll (a :: answers) = (s.supply a.1 a.2).1.supplyAll answers := rfl

/-- Answers change the registry and the inbox only. -/
theorem supplyAll_eq (s : Session) (answers : Answers) :
    ∃ registry inbox, s.supplyAll answers = { s with registry, inbox } := by
  induction answers generalizing s with
  | nil => exact ⟨_, _, rfl⟩
  | cons a answers ih =>
    obtain ⟨registry, inbox, h⟩ := ih (s.supply a.1 a.2).1
    exact ⟨registry, inbox, h⟩

section Kept

variable (s : Session) (answers : Answers)

theorem store_supplyAll : (s.supplyAll answers).store = s.store := by
  obtain ⟨registry, inbox, he⟩ := s.supplyAll_eq answers
  rw [he]

theorem objects_supplyAll : (s.supplyAll answers).objects = s.objects := by
  obtain ⟨registry, inbox, he⟩ := s.supplyAll_eq answers
  rw [he]

theorem permanent_supplyAll : (s.supplyAll answers).permanent = s.permanent := by
  obtain ⟨registry, inbox, he⟩ := s.supplyAll_eq answers
  rw [he]

theorem frame_supplyAll : (s.supplyAll answers).frame = s.frame := by
  obtain ⟨registry, inbox, he⟩ := s.supplyAll_eq answers
  rw [he]
  rfl

theorem matcher_supplyAll : (s.supplyAll answers).matcher = s.matcher :=
  matcher_eq_of_frame (s.frame_supplyAll answers)

end Kept

theorem Chronicle.supplyAll {s : Session} {calls : String → List Call} (c : s.Chronicle calls)
    (answers : Answers) : (s.supplyAll answers).Chronicle calls := by
  obtain ⟨registry, inbox, he⟩ := s.supplyAll_eq answers
  rw [he]
  exact ⟨c.distinct, c.seen, c.unseen, c.states, c.records, c.owned, c.keys, c.findings⟩

end Session

end Misuse
