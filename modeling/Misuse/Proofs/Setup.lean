import Misuse.Proofs.Runs

/-!
# Operations object by object

Every operation between passes is about one object, and it changes nothing that bears on
another one (`object?_perform`, `status?_perform`). So what a run without passes knows of an
object depends on the operations about this object only, in their order (`object?_run`,
`status?_run`).
-/

namespace Misuse

namespace Session

/-- The object an operation is about; passes and answers to all queries are about no single
one. -/
def Op.object? : Op → Option String
  | .track id _ _ => some id
  | .observe id _ => some id
  | .bind id _ => some id
  | .supply q _ => some q.object
  | .resolveAll _ => none
  | .pass => none

/-- Every operation is about a single object. -/
def Single (ops : List Op) : Prop := ∀ op ∈ ops, op.object?.isSome = true

/-- The operations about one object, in order. -/
def about (id : String) (ops : List Op) : List Op :=
  ops.filter fun op => decide (op.object? = some id)

theorem ne_pass_of_isSome {op : Op} (h : op.object?.isSome = true) : op ≠ .pass := by
  rintro rfl
  cases h

/-! ## Objects -/

/-- What an operation makes of the object it is about. -/
def Op.onObject (rules : Rulebook) : Op → Option Tracked → Option Tracked
  | .track id self className, none => (rules.get? className).map (Tracked.start id self)
  | .observe _ call, o => o.map fun o => o.observe call
  | .bind _ b, o => o.map fun o => o.bind b
  | _, o => o

theorem id_of_object? {s : Session} {id : String} {o : Tracked} (h : s.object? id = some o) :
    o.id = id := by
  simpa using List.find?_some h

theorem object?_update (s : Session) (id id' : String) {f : Tracked → Tracked}
    (hf : ∀ o, (f o).id = o.id) :
    (s.update id f).object? id' =
      if id = id' then (s.object? id').map f else s.object? id' := by
  have ids : ((fun o : Tracked => o.id == id') ∘ fun o => if o.id == id then f o else o) =
      fun o => o.id == id' := by
    funext o
    simp only [Function.comp_apply]
    split
    · rw [hf]
    · rfl
  unfold update object?
  rw [List.find?_map, ids]
  cases ho : s.objects.find? fun o => o.id == id' with
  | none => simp
  | some o =>
    have : o.id = id' := id_of_object? ho
    subst this
    by_cases h : id = o.id
    · simp [h]
    · simp [h, Ne.symm h]

theorem object?_track (s : Session) (id' self className id : String) :
    (s.perform (.track id' self className)).object? id =
      if id' = id then Op.onObject s.rules (.track id' self className) (s.object? id)
      else s.object? id := by
  cases hr : s.rules.get? className with
  | none =>
    have hs : s.perform (.track id' self className) = s := by
      simp [perform, track, hr, Except.toOption]
    rw [hs]
    cases s.object? id <;> simp [Op.onObject, hr]
  | some rule =>
    cases ho : s.object? id' with
    | some o =>
      have hs : s.perform (.track id' self className) = s := by
        simp [perform, track, hr, tracks, ho, Except.toOption]
      rw [hs]
      by_cases h : id' = id
      · subst h
        simp [ho, Op.onObject]
      · simp [h]
    | none =>
      have hs : s.perform (.track id' self className) =
          { s with objects := s.objects ++ [.start id' self rule] } := by
        simp [perform, track, hr, tracks, ho, Except.toOption]
      rw [hs]
      unfold object? at ho ⊢
      by_cases h : id' = id
      · subst h
        simp [List.find?_append, ho, Op.onObject, hr, Tracked.start]
      · simp [List.find?_append, h, Tracked.start]

/-- **An operation changes the object it is about only.** -/
theorem object?_perform (s : Session) {op : Op} (h : op.object?.isSome = true) (id : String) :
    (s.perform op).object? id =
      if op.object? = some id then op.onObject s.rules (s.object? id) else s.object? id := by
  cases op with
  | track id' self className =>
    simp only [Op.object?, Option.some.injEq]
    exact s.object?_track id' self className id
  | observe id' call =>
    simp only [Op.object?, Option.some.injEq, Op.onObject]
    cases ht : s.tracks id' with
    | true =>
      simpa [perform, observe, ht, Except.toOption] using
        s.object?_update id' id (f := fun o => o.observe call) fun _ => rfl
    | false =>
      have hs : s.perform (.observe id' call) = s := by
        simp [perform, observe, ht, Except.toOption]
      rw [hs]
      by_cases hid : id' = id
      · subst hid
        have : s.object? id' = none := by simpa [tracks] using ht
        simp [this]
      · simp [hid]
  | bind id' b =>
    simp only [Op.object?, Option.some.injEq, Op.onObject]
    cases ho : s.object? id' with
    | some o =>
      have := s.object?_update id' id (f := fun o => o.bind b) fun o => by rw [Tracked.bind_eq]
      simpa [perform, Session.bind, ho, Except.toOption] using this
    | none =>
      have hs : s.perform (.bind id' b) = s := by
        simp [perform, Session.bind, ho, Except.toOption]
      rw [hs]
      by_cases hid : id' = id
      · subst hid
        simp [ho]
      · simp [hid]
  | supply q values =>
    simp only [Op.onObject, ite_self]
    rfl
  | resolveAll answer? => cases h
  | pass => cases h

/-! ## Answers -/

/-- What an operation makes of what is known of a query. -/
def Op.onStatus (q : Query) : Op → Option (Registry.Status String) →
    Option (Registry.Status String)
  | .supply p values, st => if p = q then some (Registry.answeredStatus values st) else st
  | _, st => st

theorem status?_perform (s : Session) {op : Op} (h : op.object?.isSome = true) (q : Query) :
    (s.perform op).registry.status? q = op.onStatus q (s.registry.status? q) := by
  cases op with
  | track id self className =>
    simp only [perform, track]
    split
    · rfl
    · split <;> rfl
  | observe id call =>
    simp only [perform, observe]
    split <;> rfl
  | bind id b =>
    simp only [perform, Session.bind]
    split <;> rfl
  | supply p values =>
    change (s.registry.resolve p values).1.status? q = _
    rw [Registry.status?_resolve, Op.onStatus]
    by_cases hp : p = q
    · rw [hp]
    · rw [if_neg hp, if_neg hp]
  | resolveAll answer? => cases h
  | pass => cases h

theorem onStatus_of_ne {op : Op} {q : Query} (h : op.object? ≠ some q.object)
    (st : Option (Registry.Status String)) : op.onStatus q st = st := by
  cases op with
  | supply p values =>
    have : p ≠ q := by
      rintro rfl
      exact h rfl
    simp [Op.onStatus, this]
  | _ => rfl

/-! ## Runs without passes -/

/-- **What a session knows of an object comes from the operations about it.** -/
theorem object?_run (s : Session) {ops : List Op} (h : Single ops) (id : String) :
    (s.run ops).object? id =
      (about id ops).foldl (fun o op => op.onObject s.rules o) (s.object? id) := by
  induction ops generalizing s with
  | nil => rfl
  | cons op ops ih =>
    rw [run_cons, ih _ fun op hop => h op (List.mem_cons_of_mem _ hop), rules_perform,
      object?_perform s (h op (List.mem_cons_self ..))]
    by_cases hid : op.object? = some id
    · simp [about, hid]
    · simp [about, hid]

/-- **What it knows of a query comes from the operations about the query's object.** -/
theorem status?_run (s : Session) {ops : List Op} (h : Single ops) (q : Query) :
    (s.run ops).registry.status? q =
      (about q.object ops).foldl (fun st op => op.onStatus q st) (s.registry.status? q) := by
  induction ops generalizing s with
  | nil => rfl
  | cons op ops ih =>
    rw [run_cons, ih _ fun op hop => h op (List.mem_cons_of_mem _ hop),
      status?_perform s (h op (List.mem_cons_self ..))]
    by_cases hid : op.object? = some q.object
    · simp [about, hid]
    · simp [about, hid, onStatus_of_ne hid]

/-- No query has been asked yet: answers are kept for those to come. -/
structure Unasked (s : Session) : Prop where
  inbox : s.inbox = []
  status : ∀ q ls, s.registry.status? q ≠ some (.waiting ls)
  keyed : s.registry.Keyed

theorem unasked_start {settings : Settings} {rules : Rulebook} {subtyping : Subtyping}
    {s : Session} (h : start settings rules subtyping = .ok s) : s.Unasked := by
  rw [eq_of_start h]
  exact ⟨rfl, nofun, List.nodup_nil⟩

theorem Unasked.perform {s : Session} (h : s.Unasked) {op : Op} (hop : op.object?.isSome = true) :
    (s.perform op).Unasked := by
  have status : ∀ q ls, (s.perform op).registry.status? q ≠ some (.waiting ls) := by
    intro q ls
    rw [status?_perform s hop]
    cases op with
    | supply p values =>
      simp only [Op.onStatus]
      split
      · unfold Registry.answeredStatus
        split <;> simp
      · exact h.status q ls
    | _ => exact h.status q ls
  cases op with
  | track id self className =>
    simp only [Session.perform, track] at status ⊢
    split
    · exact h
    · split <;> exact ⟨h.inbox, h.status, h.keyed⟩
  | observe id call =>
    simp only [Session.perform, observe]
    split <;> exact ⟨h.inbox, h.status, h.keyed⟩
  | bind id b =>
    simp only [Session.perform, Session.bind]
    split <;> exact ⟨h.inbox, h.status, h.keyed⟩
  | supply p values =>
    refine ⟨?_, status, h.keyed.resolve p values⟩
    have deliveries : (s.registry.resolve p values).2.1 = [] := by
      unfold Registry.resolve
      split
      · rfl
      · rename_i ls hls
        exact absurd hls (h.status p ls)
      · rfl
    change s.inbox ++ (s.registry.resolve p values).2.1 = []
    rw [h.inbox, deliveries]
    rfl
  | resolveAll answer? => cases hop
  | pass => cases hop

/-- A run without passes, from a session without queries, tracks objects and keeps answers. -/
theorem Unasked.run {s : Session} (h : s.Unasked) {ops : List Op} (hops : Single ops) :
    (s.run ops).Unasked ∧ (s.run ops).store = s.store ∧
      (s.run ops).permanent = s.permanent := by
  induction ops generalizing s with
  | nil => exact ⟨h, rfl, rfl⟩
  | cons op ops ih =>
    have hop := hops op (List.mem_cons_self ..)
    obtain ⟨hu, hstore, hpermanent⟩ :=
      ih (h.perform hop) fun op hop => hops op (List.mem_cons_of_mem _ hop)
    obtain ⟨objects, registry, inbox, he⟩ := s.exists_perform_eq (ne_pass_of_isSome hop)
    rw [run_cons]
    refine ⟨hu, hstore.trans ?_, hpermanent.trans ?_⟩
    · rw [he]
    · rw [he]

end Session

end Misuse
