import Mathlib.Data.List.Induction
import Misuse.Proofs.Queries

/-!
# What listeners hear

The calls of a registry, from an empty one on. What is known of a query is what the calls on
it leave (`status?_after`): its first answer, or else the listeners attached so far. So a
listener is delivered to once, with the first answer, when both it and the answer are there;
and an answer reaches those that wait for it (`listeners_hear_first_answer`).
-/

namespace Misuse.Registry

/-- A call of a registry. A listener is known by the position of the call that attaches it. -/
inductive Op where
  | request (q : Query)
  | listen (q : Query)
  | resolve (q : Query) (values : List Value)
  deriving DecidableEq, Repr

/-- What a call says in return: whether a query is new, and how many listeners an answer reaches. -/
inductive Reply where
  | asked (new : Bool)
  | attached
  | reached (count : Nat)
  deriving DecidableEq, Repr

namespace Op

/-- The query that the call is about. -/
def query : Op → Query
  | .request q | .listen q | .resolve q _ => q

def act (i : Nat) (r : Registry Nat) : Op → Registry Nat × List (Delivery Nat)
  | .request q => ((r.request q).1, [])
  | .listen q => r.listen q i
  | .resolve q values => ((r.resolve q values).1, (r.resolve q values).2.1)

def reply (r : Registry Nat) : Op → Reply
  | .request q => .asked (r.request q).2
  | .listen _ => .attached
  | .resolve q values => .reached (r.resolve q values).2.2

/-- The answer the call gives to a query. -/
def answer? (q : Query) : Op → Option (List Value)
  | .resolve p values => if p = q then some values else none
  | _ => none

/-- The call makes a query wait, unless it is answered. -/
def asks (q : Query) (op : Op) : Bool := op == .request q || op == .listen q

end Op

/-- The registry after some calls. -/
def after (ops : List Op) : Registry Nat :=
  ops.zipIdx.foldl (fun r e => (e.1.act e.2 r).1) .empty

/-- What the call at a position delivers. -/
def delivered (ops : List Op) (j : Nat) : List (Delivery Nat) :=
  match ops[j]? with
  | some op => (op.act j (after (ops.take j))).2
  | none => []

/-- What the call at a position says. -/
def replied (ops : List Op) (j : Nat) : Option Reply :=
  ops[j]?.map fun op => op.reply (after (ops.take j))

/-- A query is answered at a position, and not before. -/
def FirstAnswer (ops : List Op) (q : Query) (a : Nat) (values : List Value) : Prop :=
  ops[a]? = some (.resolve q values) ∧ ∀ j < a, ∀ w, ops[j]? ≠ some (.resolve q w)

/-- A query is answered before a position. -/
def AnsweredBefore (ops : List Op) (q : Query) (i : Nat) : Prop :=
  ∃ j < i, ∃ w, ops[j]? = some (.resolve q w)

/-- The listeners of a query that are attached before a position. -/
def attached (ops : List Op) (q : Query) (i : Nat) : List Nat :=
  (List.range i).filter fun j => ops[j]? == some (.listen q)

/-! ## What is known of a query -/

theorem after_concat (ops : List Op) (op : Op) :
    after (ops ++ [op]) = (op.act ops.length (after ops)).1 := by
  simp [after, List.zipIdx_append]

theorem attached_concat (ops : List Op) (op : Op) (q : Query) :
    attached (ops ++ [op]) q (ops.length + 1) =
      attached ops q ops.length ++ if op = .listen q then [ops.length] else [] := by
  unfold attached
  rw [List.range_succ, List.filter_append]
  congr 1
  · refine List.filter_congr fun j hj => ?_
    rw [List.getElem?_append_left (List.mem_range.mp hj)]
  · by_cases h : op = .listen q <;> simp [h]

/-- What some calls make known of a query. -/
def known (ops : List Op) (q : Query) : Option (Status Nat) :=
  match ops.findSome? (Op.answer? q) with
  | some values => some (.answered values)
  | none => if ops.any (Op.asks q) then some (.waiting (attached ops q ops.length)) else none

/-- What one call makes of what is known of a query. -/
def Op.onKnown (i : Nat) (q : Query) : Op → Option (Status Nat) → Option (Status Nat)
  | .request p, st => if p = q then some (st.getD (.waiting [])) else st
  | .listen p, st => if p = q then some (askedStatus i st) else st
  | .resolve p values, st => if p = q then some (answeredStatus values st) else st

theorem status?_act (i : Nat) (r : Registry Nat) (op : Op) (q : Query) :
    (op.act i r).1.status? q = op.onKnown i q (r.status? q) := by
  cases op with
  | request p =>
    refine (status?_request r p q).trans ?_
    by_cases hp : p = q <;> simp [Op.onKnown, hp]
  | listen p =>
    refine (status?_listen r p q i).trans ?_
    by_cases hp : p = q <;> simp [Op.onKnown, hp]
  | resolve p values =>
    refine (status?_resolve r p q values).trans ?_
    by_cases hp : p = q <;> simp [Op.onKnown, hp]

theorem attached_eq_nil {ops : List Op} {q : Query} (h : ops.any (Op.asks q) = false) (i : Nat) :
    attached ops q i = [] := by
  refine List.filter_eq_nil_iff.mpr fun j _ hj => ?_
  have hop : Op.listen q ∈ ops := List.mem_of_getElem? (beq_iff_eq.mp hj)
  simpa [Op.asks] using List.any_eq_false.mp h _ hop

theorem known_concat (ops : List Op) (op : Op) (q : Query) :
    known (ops ++ [op]) q = op.onKnown ops.length q (known ops q) := by
  rw [known, known, List.findSome?_append, List.any_append, List.length_append,
    List.length_singleton, attached_concat]
  cases ops.findSome? (Op.answer? q) with
  | some values => cases op <;> simp [Op.onKnown, askedStatus, answeredStatus]
  | none =>
    -- A query that no call has asked for has no listeners either.
    cases hasked : ops.any (Op.asks q) with
    | true =>
      cases op with
      | request p => by_cases hp : p = q <;> simp [Op.onKnown, Op.answer?, hp]
      | listen p => by_cases hp : p = q <;> simp [Op.onKnown, Op.answer?, askedStatus, hp]
      | resolve p w => by_cases hp : p = q <;> simp [Op.onKnown, Op.answer?, answeredStatus, hp]
    | false =>
      have nobody := attached_eq_nil hasked ops.length
      cases op with
      | request p => by_cases hp : p = q <;> simp [Op.onKnown, Op.answer?, Op.asks, nobody, hp]
      | listen p =>
        by_cases hp : p = q <;> simp [Op.onKnown, Op.answer?, Op.asks, askedStatus, nobody, hp]
      | resolve p w =>
        by_cases hp : p = q <;> simp [Op.onKnown, Op.answer?, Op.asks, answeredStatus, hp]

theorem status?_after (ops : List Op) (q : Query) : (after ops).status? q = known ops q := by
  induction ops using List.reverseRecOn with
  | nil => rfl
  | append_singleton ops op ih => rw [after_concat, status?_act, known_concat, ih]

/-- Nothing is known of a query while no call is about it. -/
theorem status?_after_eq_none_iff (ops : List Op) (q : Query) :
    (after ops).status? q = none ↔ ∀ op ∈ ops, op.query ≠ q := by
  have about (op : Op) : op.query ≠ q ↔ op.answer? q = none ∧ ¬ op.asks q = true := by
    cases op <;> simp [Op.query, Op.answer?, Op.asks]
  simp only [about, forall₂_and]
  rw [status?_after, known, ← List.findSome?_eq_none_iff, ← List.any_eq_false]
  cases ops.findSome? (Op.answer? q) with
  | some values => simp
  | none => cases ops.any (Op.asks q) <;> simp

/-! ## What is known along the way -/

theorem answer?_eq_some_iff (q : Query) (op : Op) (values : List Value) :
    op.answer? q = some values ↔ op = .resolve q values := by
  cases op <;> simp [Op.answer?]

theorem findSome?_answer_eq_some_iff (ops : List Op) (q : Query) (values : List Value) :
    ops.findSome? (Op.answer? q) = some values ↔ ∃ a, FirstAnswer ops q a values := by
  constructor
  · intro h
    obtain ⟨before, op, rest, rfl, hop, hbefore⟩ := List.findSome?_eq_some_iff.mp h
    refine ⟨before.length, ?_, fun j hj w hw => ?_⟩
    · rw [List.getElem?_append_right (Nat.le_refl _), Nat.sub_self]
      exact congrArg some ((answer?_eq_some_iff q op values).mp hop)
    · rw [List.getElem?_append_left hj] at hw
      have hnone := hbefore _ (List.mem_of_getElem? hw)
      rw [(answer?_eq_some_iff q _ w).mpr rfl] at hnone
      cases hnone
  · rintro ⟨a, ha, hbefore⟩
    obtain ⟨hlt, hop⟩ := List.getElem?_eq_some_iff.mp ha
    refine List.findSome?_eq_some_iff.mpr
      ⟨ops.take a, .resolve q values, ops.drop (a + 1), ?_, (answer?_eq_some_iff ..).mpr rfl,
        fun op hmem => ?_⟩
    · rw [← hop, ← List.drop_eq_getElem_cons hlt, List.take_append_drop]
    · obtain ⟨j, hj⟩ := List.getElem?_of_mem hmem
      rw [List.getElem?_take] at hj
      split at hj
      next hja =>
        cases hw : op.answer? q with
        | none => rfl
        | some w => exact absurd ((answer?_eq_some_iff q op w).mp hw ▸ hj) (hbefore j hja w)
      next => cases hj

theorem FirstAnswer.position_eq {ops : List Op} {q : Query} {a b : Nat} {v w : List Value}
    (ha : FirstAnswer ops q a v) (hb : FirstAnswer ops q b w) : a = b := by
  rcases Nat.lt_trichotomy a b with h | h | h
  · exact absurd ha.1 (hb.2 a h v)
  · exact h
  · exact absurd hb.1 (ha.2 b h w)

theorem firstAnswer_take {ops : List Op} {q : Query} {a i : Nat} {values : List Value} :
    FirstAnswer (ops.take i) q a values ↔ a < i ∧ FirstAnswer ops q a values := by
  unfold FirstAnswer
  rw [List.getElem?_take]
  by_cases ha : a < i
  · rw [if_pos ha]
    refine ⟨fun h => ⟨ha, h.1, fun j hj w => ?_⟩, fun h => ⟨h.2.1, fun j hj w => ?_⟩⟩
    · have := h.2 j hj w
      rwa [List.getElem?_take, if_pos (Nat.lt_trans hj ha)] at this
    · rw [List.getElem?_take, if_pos (Nat.lt_trans hj ha)]
      exact h.2.2 j hj w
  · simp [ha]

/-- Once a query is answered, its first answer is known. -/
theorem status?_take_of_firstAnswer {ops : List Op} {q : Query} {a i : Nat} {values : List Value}
    (h : FirstAnswer ops q a values) (ha : a < i) :
    (after (ops.take i)).status? q = some (.answered values) := by
  rw [status?_after, known,
    (findSome?_answer_eq_some_iff _ _ _).mpr ⟨a, firstAnswer_take.mpr ⟨ha, h⟩⟩]

theorem exists_firstAnswer {ops : List Op} {q : Query} {i : Nat} (h : AnsweredBefore ops q i) :
    ∃ a < i, ∃ values, FirstAnswer ops q a values := by
  obtain ⟨j, hj, w, hw⟩ := h
  cases hfirst : (ops.take i).findSome? (Op.answer? q) with
  | some values =>
    obtain ⟨a, ha⟩ := (findSome?_answer_eq_some_iff _ _ _).mp hfirst
    obtain ⟨hai, ha⟩ := firstAnswer_take.mp ha
    exact ⟨a, hai, values, ha⟩
  | none =>
    have hop : Op.resolve q w ∈ ops.take i := List.mem_of_getElem? (by
      rw [List.getElem?_take, if_pos hj, hw])
    have hnone := List.findSome?_eq_none_iff.mp hfirst _ hop
    rw [(answer?_eq_some_iff ..).mpr rfl] at hnone
    cases hnone

theorem attached_take {ops : List Op} {i : Nat} (hi : i ≤ ops.length) (q : Query) :
    attached (ops.take i) q (ops.take i).length = attached ops q i := by
  unfold attached
  rw [List.length_take_of_le hi]
  refine List.filter_congr fun j hj => ?_
  rw [List.getElem?_take, if_pos (List.mem_range.mp hj)]

/-- Until a query is answered, the listeners attached so far wait. -/
theorem status?_take_of_unanswered {ops : List Op} {q : Query} {i : Nat} (hi : i ≤ ops.length)
    (h : ¬ AnsweredBefore ops q i) :
    (after (ops.take i)).status? q =
      if (ops.take i).any (Op.asks q) then some (.waiting (attached ops q i)) else none := by
  have unanswered : (ops.take i).findSome? (Op.answer? q) = none := by
    cases hfirst : (ops.take i).findSome? (Op.answer? q) with
    | none => rfl
    | some values =>
      obtain ⟨a, ha⟩ := (findSome?_answer_eq_some_iff _ _ _).mp hfirst
      obtain ⟨hai, ha⟩ := firstAnswer_take.mp ha
      exact absurd ⟨a, hai, values, ha.1⟩ h
  rw [status?_after, known, unanswered, attached_take hi]

/-! ## Deliveries -/

/-- The first answer of a query is delivered to the listeners attached before, in order. -/
theorem delivered_resolve {ops : List Op} {q : Query} {i : Nat} {values : List Value}
    (hop : ops[i]? = some (.resolve q values)) (h : ¬ AnsweredBefore ops q i) :
    delivered ops i = (attached ops q i).map fun l => ⟨l, q.bind values⟩ := by
  have hi : i ≤ ops.length := Nat.le_of_lt (List.getElem?_eq_some_iff.mp hop).1
  have status := status?_take_of_unanswered hi h
  simp only [delivered, hop, Op.act, resolve]
  cases hasked : (ops.take i).any (Op.asks q) with
  | true => simp [status, hasked]
  | false =>
    have none_attached := attached_eq_nil hasked (ops.take i).length
    rw [attached_take hi] at none_attached
    simp [status, hasked, none_attached]

theorem delivered_resolve_again {ops : List Op} {q : Query} {i : Nat} {values : List Value}
    (hop : ops[i]? = some (.resolve q values)) (h : AnsweredBefore ops q i) :
    delivered ops i = [] := by
  obtain ⟨a, ha, first, hfirst⟩ := exists_firstAnswer h
  simp [delivered, hop, Op.act, resolve, status?_take_of_firstAnswer hfirst ha]

/-- The first answer reaches the listeners attached before, and every later one nobody. -/
theorem replied_resolve {ops : List Op} {q : Query} {i : Nat} {values : List Value}
    (hop : ops[i]? = some (.resolve q values)) :
    replied ops i = some (.reached (delivered ops i).length) := by
  simp only [replied, delivered, hop, Option.map_some, Op.reply, Op.act, resolve]
  cases (after (ops.take i)).status? q with
  | none => rfl
  | some st => cases st <;> simp

/-- A query is new if no call before is about it. -/
theorem replied_request {ops : List Op} {q : Query} {i : Nat}
    (hop : ops[i]? = some (.request q)) :
    replied ops i = some (.asked (decide (∀ op ∈ ops.take i, op.query ≠ q))) := by
  have new : (!(after (ops.take i)).knows q) = decide (∀ op ∈ ops.take i, op.query ≠ q) := by
    rw [Bool.eq_iff_iff, decide_eq_true_iff, ← status?_after_eq_none_iff, knows,
      Bool.not_eq_true', Option.isSome_eq_false_iff, Option.isNone_iff_eq_none]
  rw [replied, hop, Option.map_some, Op.reply, snd_request, new]

/-- A listener attached to an answered query hears the first answer at once. -/
theorem delivered_listen {ops : List Op} {q : Query} {a i : Nat} {values : List Value}
    (hop : ops[i]? = some (.listen q)) (h : FirstAnswer ops q a values) (ha : a < i) :
    delivered ops i = [⟨i, q.bind values⟩] := by
  simp [delivered, hop, Op.act, listen, status?_take_of_firstAnswer h ha]

theorem delivered_listen_early {ops : List Op} {q : Query} {i : Nat}
    (hop : ops[i]? = some (.listen q)) (h : ¬ AnsweredBefore ops q i) :
    delivered ops i = [] := by
  have hi : i ≤ ops.length := Nat.le_of_lt (List.getElem?_eq_some_iff.mp hop).1
  have status := status?_take_of_unanswered hi h
  simp only [delivered, hop, Op.act, listen]
  cases hasked : (ops.take i).any (Op.asks q) <;> simp [status, hasked]

/-- A call that attaches another listener delivers to that one only, if at all. -/
theorem target_of_mem_delivered_listen {ops : List Op} {p : Query} {j : Nat} {d : Delivery Nat}
    (hop : ops[j]? = some (.listen p)) (hd : d ∈ delivered ops j) : d.target = j := by
  by_cases h : AnsweredBefore ops p j
  · obtain ⟨a, ha, values, hfirst⟩ := exists_firstAnswer h
    rw [delivered_listen hop hfirst ha] at hd
    rw [List.mem_singleton.mp hd]
  · rw [delivered_listen_early hop h] at hd
    cases hd

/-- What a call delivers to the listener attached at a position. -/
def heard (ops : List Op) (i j : Nat) : List (Delivery Nat) :=
  (delivered ops j).filter fun d => d.target == i

theorem mem_attached {ops : List Op} {q : Query} {i a : Nat} :
    i ∈ attached ops q a ↔ i < a ∧ ops[i]? = some (.listen q) := by
  simp [attached]

theorem nodup_attached (ops : List Op) (q : Query) (a : Nat) : (attached ops q a).Nodup :=
  List.nodup_range.filter _

/-- A listener hears nothing but at its own call and at the first answer. -/
theorem heard_elsewhere {ops : List Op} {q : Query} {i j : Nat}
    (hop : ops[i]? = some (.listen q)) (hj : j ≠ i)
    (hfirst : ∀ values, ¬ FirstAnswer ops q j values) : heard ops i j = [] := by
  refine List.filter_eq_nil_iff.mpr fun d hd htarget => ?_
  have htarget : d.target = i := beq_iff_eq.mp htarget
  cases hat : ops[j]? with
  | none => simp [delivered, hat] at hd
  | some op =>
    cases op with
    | request p => simp [delivered, hat, Op.act] at hd
    | listen p => exact hj ((target_of_mem_delivered_listen hat hd).symm.trans htarget)
    | resolve p values =>
      by_cases h : AnsweredBefore ops p j
      · rw [delivered_resolve_again hat h] at hd
        cases hd
      · rw [delivered_resolve hat h] at hd
        obtain ⟨l, hl, rfl⟩ := List.mem_map.mp hd
        obtain rfl : l = i := htarget
        have hsame := (mem_attached.mp hl).2.symm.trans hop
        obtain rfl : p = q := by simpa using hsame
        exact hfirst values ⟨hat, fun k hk w hw => h ⟨k, hk, w, hw⟩⟩

theorem heard_at_answer {ops : List Op} {q : Query} {i a : Nat} {values : List Value}
    (hop : ops[i]? = some (.listen q)) (h : FirstAnswer ops q a values) :
    heard ops i a = if i < a then [⟨i, q.bind values⟩] else [] := by
  have unanswered : ¬ AnsweredBefore ops q a := fun ⟨j, hj, w, hw⟩ => h.2 j hj w hw
  rw [heard, delivered_resolve h.1 unanswered, List.filter_map]
  have waits : (attached ops q a).filter (fun l => l == i) = if i < a then [i] else [] := by
    rw [List.filter_beq, (nodup_attached ops q a).count]
    by_cases ha : i < a <;> simp [mem_attached, hop, ha]
  exact (congrArg (List.map _) waits).trans (by split <;> rfl)

theorem heard_at_listen {ops : List Op} {q : Query} {i a : Nat} {values : List Value}
    (hop : ops[i]? = some (.listen q)) (h : FirstAnswer ops q a values) :
    heard ops i i = if a < i then [⟨i, q.bind values⟩] else [] := by
  by_cases ha : a < i
  · rw [heard, delivered_listen hop h ha, if_pos ha]
    simp
  · have unanswered : ¬ AnsweredBefore ops q i :=
      fun ⟨j, hj, w, hw⟩ => h.2 j (Nat.lt_of_lt_of_le hj (Nat.le_of_not_lt ha)) w hw
    rw [heard, delivered_listen_early hop unanswered, if_neg ha]
    rfl

/-- A listener hears the first answer once both are there. -/
theorem heard_of_firstAnswer {ops : List Op} {q : Query} {i a : Nat} {values : List Value}
    (hop : ops[i]? = some (.listen q)) (h : FirstAnswer ops q a values) (j : Nat) :
    heard ops i j = if j = max a i then [⟨i, q.bind values⟩] else [] := by
  have hne : a ≠ i := by
    rintro rfl
    cases h.1.symm.trans hop
  by_cases hi : j = i
  · subst hi
    rw [heard_at_listen hop h]
    split <;> split <;> first | rfl | omega
  · by_cases ha : j = a
    · subst ha
      rw [heard_at_answer hop h]
      split <;> split <;> first | rfl | omega
    · rw [heard_elsewhere hop hi, if_neg (by omega)]
      exact fun w hw => ha (hw.position_eq h)

theorem heard_of_unanswered {ops : List Op} {q : Query} {i : Nat}
    (hop : ops[i]? = some (.listen q)) (h : ∀ values, .resolve q values ∉ ops) (j : Nat) :
    heard ops i j = [] := by
  by_cases hi : j = i
  · subst hi
    rw [heard, delivered_listen_early hop fun ⟨k, _, w, hw⟩ => h w (List.mem_of_getElem? hw)]
    rfl
  · exact heard_elsewhere hop hi fun values hfirst => h values (List.mem_of_getElem? hfirst.1)

/-! ## Waiting -/

theorem keyed_after (ops : List Op) : (after ops).Keyed := by
  induction ops using List.reverseRecOn with
  | nil => exact List.nodup_nil
  | append_singleton ops op ih =>
    rw [after_concat]
    cases op with
    | request q => exact ih.request q
    | listen q => exact ih.listen q _
    | resolve q values => exact ih.resolve q values

theorem values?_after_eq_some_iff (ops : List Op) (q : Query) (values : List Value) :
    (after ops).values? q = some values ↔ ∃ a, FirstAnswer ops q a values := by
  rw [← findSome?_answer_eq_some_iff, values?, status?_after, known]
  cases ops.findSome? (Op.answer? q) with
  | some first => rfl
  | none => cases ops.any (Op.asks q) <;> simp

theorem FirstAnswer.append {ops : List Op} {q : Query} {a : Nat} {values : List Value}
    (h : FirstAnswer ops q a values) (more : List Op) :
    FirstAnswer (ops ++ more) q a values := by
  have prefixed : (ops ++ more).take ops.length = ops := List.take_left
  rw [← prefixed] at h
  exact (firstAnswer_take.mp h).2

theorem mem_pending_after_iff (ops : List Op) (q : Query) :
    q ∈ (after ops).pending ↔
      (.request q ∈ ops ∨ .listen q ∈ ops) ∧ ∀ values, .resolve q values ∉ ops := by
  have asked : ops.any (Op.asks q) = true ↔ .request q ∈ ops ∨ .listen q ∈ ops := by
    simp only [List.any_eq_true, Op.asks, Bool.or_eq_true, beq_iff_eq, and_or_left, exists_or,
      exists_eq_right]
  have unanswered : ops.findSome? (Op.answer? q) = none ↔ ∀ values, .resolve q values ∉ ops := by
    rw [List.findSome?_eq_none_iff]
    constructor
    · intro h values hop
      cases (h _ hop).symm.trans ((answer?_eq_some_iff q _ values).mpr rfl)
    · intro h op hop
      cases hw : op.answer? q with
      | none => rfl
      | some w => exact absurd ((answer?_eq_some_iff q op w).mp hw ▸ hop) (h w)
  rw [mem_pending_iff (keyed_after ops), status?_after, known, ← asked, ← unanswered]
  cases ops.findSome? (Op.answer? q) with
  | some first => simp
  | none => cases ops.any (Op.asks q) <;> simp

/-- **Listeners hear the first answer, once.** A listener of a query that is answered hears
the first answer when both are there, and never anything else. The first answer reaches the
listeners attached before, any other none, and each says how many it has reached. A request says
whether its query is new. The values of a query are those of its first answer, for good. The
pending queries are those requested or listened to and never answered. -/
theorem listeners_hear_first_answer (ops : List Op) :
    (∀ i q, ops[i]? = some (.listen q) →
      ((∃ values, .resolve q values ∈ ops) → ∃ a values, FirstAnswer ops q a values ∧
        ∀ j, heard ops i j = if j = max a i then [⟨i, q.bind values⟩] else []) ∧
      ((∀ values, .resolve q values ∉ ops) → ∀ j, heard ops i j = [])) ∧
    (∀ i q values, ops[i]? = some (.resolve q values) →
      (AnsweredBefore ops q i → delivered ops i = [] ∧ replied ops i = some (.reached 0)) ∧
      (¬ AnsweredBefore ops q i →
        delivered ops i = (attached ops q i).map (fun l => ⟨l, q.bind values⟩) ∧
          replied ops i = some (.reached (attached ops q i).length))) ∧
    (∀ i q, ops[i]? = some (.request q) →
      replied ops i = some (.asked (decide (∀ op ∈ ops.take i, op.query ≠ q)))) ∧
    (∀ q values, (after ops).values? q = some values ↔ ∃ a, FirstAnswer ops q a values) ∧
    (∀ q values more, (after ops).values? q = some values →
      (after (ops ++ more)).values? q = some values) ∧
    Sorted.Increasing (after ops).pending ∧
    ∀ q, q ∈ (after ops).pending ↔
      (.request q ∈ ops ∨ .listen q ∈ ops) ∧ ∀ values, .resolve q values ∉ ops := by
  refine ⟨fun i q hop => ⟨fun ⟨w, hw⟩ => ?_, heard_of_unanswered hop⟩,
    fun i q values hop => ⟨fun before => ?_, fun first => ?_⟩, fun i q => replied_request,
    values?_after_eq_some_iff ops, fun q values more h => ?_, Sorted.increasing_ofList _,
    mem_pending_after_iff ops⟩
  · obtain ⟨j, hj⟩ := List.getElem?_of_mem hw
    have hlt : j < ops.length := (List.getElem?_eq_some_iff.mp hj).1
    obtain ⟨a, -, values, hfirst⟩ := exists_firstAnswer ⟨j, hlt, w, hj⟩
    exact ⟨a, values, hfirst, heard_of_firstAnswer hop hfirst⟩
  · rw [replied_resolve hop, delivered_resolve_again hop before]
    exact ⟨rfl, rfl⟩
  · rw [replied_resolve hop, delivered_resolve hop first, List.length_map]
    exact ⟨rfl, rfl⟩
  · obtain ⟨a, ha⟩ := (values?_after_eq_some_iff ops q values).mp h
    exact (values?_after_eq_some_iff ..).mpr ⟨a, ha.append more⟩

def sizeQuery : Query := ⟨"k", "1", "size", .argument 0⟩

def modeQuery : Query := ⟨"k", "1", "mode", .argument 1⟩

def bits (n : Int) : List Value := [⟨.constant (.int n), none⟩]

/-- The size is answered twice, with a listener attached before and one attached between the
answers. The mode is listened to and never answered. -/
def listenerOps : List Op :=
  [.request sizeQuery, .listen sizeQuery, .resolve sizeQuery (bits 128), .listen modeQuery,
   .listen sizeQuery, .resolve sizeQuery (bits 64)]

theorem listeners_hear_first_answer_size :
    (∃ a values, FirstAnswer listenerOps sizeQuery a values ∧
      ∀ j, heard listenerOps 1 j =
        if j = max a 1 then [⟨1, sizeQuery.bind values⟩] else []) ∧
      heard listenerOps 1 2 = [⟨1, sizeQuery.bind (bits 128)⟩] ∧
      heard listenerOps 4 4 = [⟨4, sizeQuery.bind (bits 128)⟩] ∧
      (∀ j, heard listenerOps 3 j = []) ∧
      delivered listenerOps 5 = [] ∧ replied listenerOps 5 = some (.reached 0) ∧
      (after (listenerOps ++ [Op.resolve modeQuery []])).values? sizeQuery = some (bits 128) ∧
      (after listenerOps).pending = [modeQuery] := by
  obtain ⟨listener, answer, -, -, kept, -⟩ := listeners_hear_first_answer listenerOps
  have again : AnsweredBefore listenerOps sizeQuery 5 := ⟨2, by decide, _, rfl⟩
  obtain ⟨nobody, none⟩ := (answer 5 sizeQuery (bits 64) rfl).1 again
  refine ⟨(listener 1 sizeQuery rfl).1 ⟨bits 128, by simp [listenerOps]⟩, by decide +kernel,
    by decide +kernel, (listener 3 modeQuery rfl).2 fun w => ?_, nobody, none, ?_,
    by decide +kernel⟩
  · simp [listenerOps, sizeQuery, modeQuery]
  · exact kept sizeQuery _ _ (by decide +kernel)

end Misuse.Registry
