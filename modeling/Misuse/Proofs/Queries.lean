import Misuse.Registry
import Misuse.Proofs.Blocks

/-!
# What is known of a query

A registry answers for each query by itself: asking or answering one changes what is known
of this one only (`status?_listen_request`, `status?_resolve`). While no query is entered
twice, the pending ones are those that wait (`mem_pending_iff`).
-/

namespace Misuse

/-! ## The order of queries -/

/-- Arguments come by index, and the result after them. -/
def Slot.rank : Slot → Nat × Nat
  | .argument i => (0, i)
  | .result => (1, 0)

theorem Slot.compare_eq_rank :
    (compare : Slot → Slot → Ordering) =
      compareLex (compareOn fun s => s.rank.1) (compareOn fun s => s.rank.2) := by
  funext a b
  cases a with
  | argument i =>
    cases b with
    | argument j =>
      change (compare i j).then .eq = compare i j
      exact Ordering.then_eq
    | result => rfl
  | result => cases b <;> rfl

instance : Std.TransOrd Slot := by
  unfold Std.TransOrd
  rw [Slot.compare_eq_rank]
  infer_instance

instance : Std.LawfulEqOrd Slot where
  eq_of_compare {a b} h := by
    rw [Slot.compare_eq_rank] at h
    obtain ⟨hkind, hindex⟩ := compareLex_eq_eq.mp h
    have hkind : a.rank.1 = b.rank.1 := Std.LawfulEqOrd.eq_of_compare hkind
    have hindex : a.rank.2 = b.rank.2 := Std.LawfulEqOrd.eq_of_compare hindex
    cases a <;> cases b <;> simp_all [Slot.rank]

theorem Query.compare_eq_lex :
    (compare : Query → Query → Ordering) = compareLex (compareOn Query.object)
      (compareLex (compareOn Query.site)
        (compareLex (compareOn Query.var) (compareOn Query.slot))) := by
  funext p q
  change (compare p.object q.object).then ((compare p.site q.site).then
      ((compare p.var q.var).then ((compare p.slot q.slot).then .eq))) = _
  rw [Ordering.then_eq]
  rfl

instance : Std.TransOrd Query := by
  unfold Std.TransOrd
  rw [Query.compare_eq_lex]
  infer_instance

instance : Std.LawfulEqOrd Query where
  eq_of_compare {p q} h := by
    simp only [Query.compare_eq_lex, compareLex_eq_eq, compareOn,
      Std.LawfulEqOrd.compare_eq_iff_eq] at h
    cases p
    cases q
    simp_all

namespace Registry

variable {listener : Type}

theorem find?_setIn (q : Query) (st : Status listener) (entries : List (Query × Status listener))
    (p : Query) :
    ((setIn q st entries).find? fun e => e.1 == p).map Prod.snd =
      if q = p then some st else (entries.find? fun e => e.1 == p).map Prod.snd := by
  induction entries with
  | nil =>
    by_cases h : q = p <;> simp [setIn, h]
  | cons e r ih =>
    by_cases he : e.1 = q
    · subst he
      by_cases h : e.1 = p <;> simp [setIn, h]
    · have step : setIn q st (e :: r) = e :: setIn q st r := by simp [setIn, he]
      rw [step]
      by_cases hp : e.1 = p
      · have hq : q ≠ p := fun hc => he (hp.trans hc.symm)
        simp [hp, hq]
      · simpa [hp] using ih

theorem status?_set (r : Registry listener) (q p : Query) (st : Status listener) :
    (r.set q st).status? p = if q = p then some st else r.status? p :=
  find?_setIn q st r.entries p

/-- No query is entered twice. -/
def Keyed (r : Registry listener) : Prop := (r.entries.map Prod.fst).Nodup

theorem mem_keys_setIn (q p : Query) (st : Status listener)
    (entries : List (Query × Status listener)) :
    p ∈ (setIn q st entries).map Prod.fst ↔ p = q ∨ p ∈ entries.map Prod.fst := by
  induction entries with
  | nil => simp [setIn]
  | cons e r ih =>
    by_cases he : e.1 = q
    · simp [setIn, he]
    · have step : setIn q st (e :: r) = e :: setIn q st r := by simp [setIn, he]
      rw [step, List.map_cons, List.mem_cons, ih, List.map_cons, List.mem_cons, or_left_comm]

theorem nodup_keys_setIn (q : Query) (st : Status listener)
    {entries : List (Query × Status listener)} (h : (entries.map Prod.fst).Nodup) :
    ((setIn q st entries).map Prod.fst).Nodup := by
  induction entries with
  | nil => simp [setIn]
  | cons e es ih =>
    obtain ⟨he, hes⟩ := List.nodup_cons.mp h
    by_cases hq : e.1 = q
    · subst hq
      simpa [setIn] using h
    · have step : setIn q st (e :: es) = e :: setIn q st es := by simp [setIn, hq]
      rw [step, List.map_cons, List.nodup_cons, mem_keys_setIn]
      exact ⟨fun hc => hc.elim hq he, ih hes⟩

theorem Keyed.set {r : Registry listener} (h : r.Keyed) (q : Query) (st : Status listener) :
    (r.set q st).Keyed := nodup_keys_setIn q st h

theorem Keyed.resolve {r : Registry listener} (h : r.Keyed) (q : Query) (values : List Value) :
    (r.resolve q values).1.Keyed := by
  unfold Registry.resolve
  split
  · exact h.set ..
  · exact h.set ..
  · exact h

theorem Keyed.request {r : Registry listener} (h : r.Keyed) (q : Query) :
    (r.request q).1.Keyed := by
  unfold Registry.request
  split
  · exact h
  · exact h.set ..

theorem Keyed.listen {r : Registry listener} (h : r.Keyed) (q : Query) (target : listener) :
    (r.listen q target).1.Keyed := by
  unfold Registry.listen
  split
  · exact h.set ..
  · exact h.set ..
  · exact h

/-! ## Asking -/

theorem snd_request (r : Registry listener) (q : Query) : (r.request q).2 = !r.knows q := by
  unfold request
  cases r.knows q <;> rfl

theorem status?_request (r : Registry listener) (q p : Query) :
    (r.request q).1.status? p =
      if q = p then some ((r.status? q).getD (.waiting [])) else r.status? p := by
  unfold request knows
  cases h : r.status? q with
  | none => simp [status?_set]
  | some st =>
    by_cases hp : q = p
    · subst hp
      simp [h]
    · simp [hp]

/-- What is known of a query after it is asked: an answer stays, and a query without one
waits with one listener more. -/
def askedStatus (target : listener) : Option (Status listener) → Status listener
  | none => .waiting [target]
  | some (.waiting ls) => .waiting (ls ++ [target])
  | some (.answered values) => .answered values

theorem status?_listen (r : Registry listener) (q p : Query) (target : listener) :
    (r.listen q target).1.status? p =
      if q = p then some (askedStatus target (r.status? q)) else r.status? p := by
  unfold listen
  cases h : r.status? q with
  | none => simp [status?_set, askedStatus]
  | some st =>
    cases st with
    | waiting ls => simp [status?_set, askedStatus]
    | answered values =>
      by_cases hp : q = p
      · subst hp
        simp [h, askedStatus]
      · simp [hp]

/-- What asking a query delivers at once. -/
def answersTo (r : Registry String) (q : Query) : List (Delivery String) :=
  match r.status? q with
  | some (.answered values) => [⟨q.object, q.bind values⟩]
  | _ => []

theorem snd_listen_request (r : Registry String) (q : Query) :
    ((r.request q).1.listen q q.object).2 = r.answersTo q := by
  rw [listen, status?_request, answersTo]
  cases r.status? q with
  | none => simp
  | some st => cases st <;> simp

theorem status?_listen_request (r : Registry String) (q p : Query) :
    ((r.request q).1.listen q q.object).1.status? p =
      if q = p then some (askedStatus q.object (r.status? q)) else r.status? p := by
  rw [status?_listen, status?_request, status?_request]
  by_cases hp : q = p
  · cases r.status? q <;> simp [hp, askedStatus]
  · simp [hp]

/-! ## Answering -/

/-- What is known of a query once it is answered: the first answer stays. -/
def answeredStatus (values : List Value) : Option (Status listener) → Status listener
  | some (.answered known) => .answered known
  | _ => .answered values

theorem status?_resolve (r : Registry listener) (q p : Query) (values : List Value) :
    (r.resolve q values).1.status? p =
      if q = p then some (answeredStatus values (r.status? q)) else r.status? p := by
  unfold resolve
  cases h : r.status? q with
  | none => simp [status?_set, answeredStatus]
  | some st =>
    cases st with
    | waiting ls => simp [status?_set, answeredStatus]
    | answered known =>
      by_cases hp : q = p
      · subst hp
        simp [h, answeredStatus]
      · simp [hp]

/-! ## Waiting -/

/-- While no query is entered twice, the pending ones are those that wait. -/
theorem mem_pending_iff {r : Registry listener} (h : r.Keyed) (q : Query) :
    q ∈ r.pending ↔ ∃ ls, r.status? q = some (.waiting ls) := by
  unfold pending
  rw [Sorted.mem_ofList, List.mem_filterMap]
  constructor
  · rintro ⟨⟨p, st⟩, he, hp⟩
    cases st with
    | answered values => cases hp
    | waiting ls =>
      cases hp
      exact ⟨ls, (find?_key_eq_some_iff h q (.waiting ls)).mpr he⟩
  · rintro ⟨ls, hls⟩
    exact ⟨(q, .waiting ls), (find?_key_eq_some_iff h q (.waiting ls)).mp hls, rfl⟩

end Registry

end Misuse
