import Misuse.Proofs.Integrity
import Misuse.Proofs.Isolation
import Misuse.Proofs.Overlaps

/-!
# Operations that fail

When an operation fails is told by the run before it: an object is tracked if some operation has
entered it under a type that has an accepted rule (`tracks_run_iff`), and every failure depends
on that alone. An operation that fails, or that binds a place which is taken, leaves the session
and the positions of its objects as they are, so it can be left out of every run
(`unchanged_of_refused`).
-/

namespace Misuse

namespace Session

/-! ## When operations fail -/

theorem track_eq_error_iff (s : Session) (id self className : String) (fault : SessionFault) :
    s.track id self className = .error fault ↔
      (s.rules.get? className).isSome = false ∧ fault = .unknownRule className ∨
      (s.rules.get? className).isSome = true ∧ s.tracks id = true ∧
        fault = .duplicateObject id := by
  unfold track
  cases s.rules.get? className with
  | none => simp [eq_comm (b := fault)]
  | some rule =>
    cases s.tracks id with
    | true => simp [eq_comm (b := fault)]
    | false => simp

theorem observe_eq_error_iff (s : Session) (id : String) (call : Call) (fault : SessionFault) :
    s.observe id call = .error fault ↔ s.tracks id = false ∧ fault = .unknownObject id := by
  unfold observe
  cases s.tracks id with
  | true => simp
  | false => simp [eq_comm]

theorem bind_eq_error_iff (s : Session) (id : String) (b : Binding) (fault : SessionFault) :
    s.bind id b = .error fault ↔ s.tracks id = false ∧ fault = .unknownObject id := by
  unfold Session.bind tracks
  cases s.object? id with
  | none => simp [eq_comm]
  | some o => simp

/-- A binding is turned down if its object has one at the same place, and then nothing changes. -/
theorem bind_eq_ok_false_iff {s : Session} (distinct : (s.objects.map Tracked.id).Nodup)
    (id : String) (b : Binding) (t : Session) :
    s.bind id b = .ok (t, false) ↔
      t = s ∧ ∃ o ∈ s.objects, o.id = id ∧ o.hasPlace b = true := by
  have keep {o : Tracked} (ho : s.object? id = some o) (taken : o.hasPlace b = true) :
      (s.update id fun o => o.bind b) = s := by
    apply update_of_fixed
    intro o' ho' hid
    have found : s.object? id = some o' := hid ▸ (object?_eq_some_iff distinct o').mpr ho'
    rw [ho] at found
    cases found
    exact Tracked.bind_of_hasPlace taken
  constructor
  · intro h
    unfold Session.bind at h
    cases ho : s.object? id with
    | none =>
      rw [ho] at h
      cases h
    | some o =>
      rw [ho] at h
      simp only [Except.ok.injEq, Prod.mk.injEq, Bool.not_eq_eq_eq_not, Bool.not_false] at h
      obtain ⟨rfl, taken⟩ := h
      exact ⟨keep ho taken, o, List.mem_of_find?_eq_some ho, id_of_object? ho, taken⟩
  · rintro ⟨rfl, o, ho, rfl, taken⟩
    have found : t.object? o.id = some o := (object?_eq_some_iff distinct o).mpr ho
    simp only [Session.bind, found, keep found taken, taken, Bool.not_true]

/-! ## What is tracked -/

/-- A session with these settings has a rule for a type: one that is accepted, strictly if the
settings are strict. -/
def Offers (settings : Settings) (rules : Rulebook) (className : String) : Prop :=
  ∃ r ∈ rules.rules, r.className = className ∧
    (settings.typestate.strictLabels = true → r.check true = .ok ())

/-- Some operation tracks an object under a type that has a rule. -/
def Enters (settings : Settings) (rules : Rulebook) (ops : List Op) (id : String) : Prop :=
  ∃ self className, .track id self className ∈ ops ∧ Offers settings rules className

instance (settings : Settings) (rules : Rulebook) (className : String) :
    Decidable (Offers settings rules className) :=
  inferInstanceAs (Decidable (∃ r ∈ rules.rules, _ ∧ (_ → _)))

theorem isSome_get?_rulesFor_iff (settings : Settings) (rules : Rulebook) (className : String) :
    ((rulesFor settings rules).get? className).isSome = true ↔ Offers settings rules className := by
  unfold Rulebook.get? rulesFor Offers
  rw [List.find?_isSome]
  cases settings.typestate.strictLabels with
  | false => simp
  | true =>
    simp only [↓reduceIte, Rulebook.revalidate, List.mem_filter, Option.isNone_iff_eq_none,
      Rulebook.defect?_eq_none_iff, beq_iff_eq, and_assoc, forall_const]
    exact exists_congr fun r => and_congr_right fun _ => and_comm

theorem tracks_perform_iff (s : Session) (op : Op) (id : String) :
    (s.perform op).tracks id = true ↔ s.tracks id = true ∨
      ∃ self className, op = .track id self className ∧
        (s.rules.get? className).isSome = true := by
  cases op with
  | track id' self className =>
    unfold tracks
    rw [object?_track]
    by_cases same : id' = id
    · subst same
      rw [if_pos rfl]
      cases s.object? id' <;> simp [Op.onObject]
    · simp [same]
  | observe | bind =>
    unfold tracks
    rw [object?_perform s rfl]
    split <;> simp [Op.onObject]
  | supply q values => simp [perform, supply, tracks, object?]
  | resolveAll answer? =>
    obtain ⟨registry, inbox, he⟩ := s.resolveAll_eq answer?
    simp [perform, he, tracks, object?]
  | pass => simp [perform, tracks_congr s.ids_pass id]

theorem tracks_run_iff (s : Session) (ops : List Op) (id : String) :
    (s.run ops).tracks id = true ↔ s.tracks id = true ∨
      ∃ self className, .track id self className ∈ ops ∧
        (s.rules.get? className).isSome = true := by
  induction ops generalizing s with
  | nil => simp
  | cons op ops ih =>
    rw [run_cons, ih, tracks_perform_iff, rules_perform]
    simp only [List.mem_cons, or_assoc, or_and_right, exists_or, eq_comm]

/-! ## What fails changes nothing -/

namespace Indexed

/-- An operation fails, or it binds a place that is taken. -/
def Refuses (s : Indexed) : Op → Prop
  | .track id self className => ∃ fault, s.track id self className = .error fault
  | .observe id call => ∃ fault, s.observe id call = .error fault
  | .bind id b => (∃ fault, s.bind id b = .error fault) ∨ ∃ t, s.bind id b = .ok (t, false)
  | _ => False

namespace Exact

variable {s : Indexed} (h : s.Exact)
include h

theorem track_eq_error_iff (id self className : String) (fault : SessionFault) :
    s.track id self className = .error fault ↔
      s.toSession.track id self className = .error fault := by
  rw [h.track_eq]
  cases s.toSession.track id self className <;> simp [Except.map]

theorem observe_eq_error_iff (id : String) (call : Call) (fault : SessionFault) :
    s.observe id call = .error fault ↔ s.toSession.observe id call = .error fault := by
  rw [h.observe_eq]
  cases s.toSession.observe id call <;> simp [Except.map]

theorem bind_eq_error_iff (id : String) (b : Binding) (fault : SessionFault) :
    s.bind id b = .error fault ↔ s.toSession.bind id b = .error fault := by
  rw [h.bind_eq]
  cases s.toSession.bind id b <;> simp [Except.map]

theorem bind_eq_ok_false_iff (id : String) (b : Binding) (t : Indexed) :
    s.bind id b = .ok (t, false) ↔ t = s ∧ ∃ o ∈ s.objects, o.id = id ∧ o.hasPlace b = true := by
  have bound := Session.bind_eq_ok_false_iff h.nodup id b
  rw [h.bind_eq]
  constructor
  · intro taken
    cases ht : s.toSession.bind id b with
    | error fault => simp [ht, Except.map] at taken
    | ok r =>
      obtain ⟨u, added⟩ := r
      obtain ⟨rfl, rfl⟩ : { s with toSession := u } = t ∧ added = false := by
        simpa [ht, Except.map] using taken
      obtain ⟨rfl, place⟩ := (bound u).mp ht
      exact ⟨rfl, place⟩
  · rintro ⟨rfl, place⟩
    rw [(bound t.toSession).mpr ⟨rfl, place⟩]
    rfl

end Exact

theorem perform_of_refuses {s : Indexed} (h : s.Exact) {op : Op} (refused : s.Refuses op) :
    s.perform op = s := by
  cases op with
  | track id self className =>
    obtain ⟨fault, failed⟩ := refused
    rw [perform, failed]
    rfl
  | observe id call =>
    obtain ⟨fault, failed⟩ := refused
    rw [perform, failed]
    rfl
  | bind id b =>
    obtain ⟨fault, failed⟩ | ⟨t, taken⟩ := refused
    · rw [perform, failed]
      rfl
    · rw [perform, taken]
      exact ((h.bind_eq_ok_false_iff id b t).mp taken).1
  | supply | resolveAll | pass => exact refused.elim

end Indexed

variable {settings : Settings} {rules : Rulebook} {subtyping : Subtyping}

/-- **What fails changes nothing.** Take a session that finds its objects by their positions. After
any run it is the one that finds them by a search, and an object is tracked, and its position is
known, exactly if the run has entered it under a type with an accepted rule. Tracking fails if the
type has no accepted rule, which is looked at first, or if the object is tracked already; observing
and binding fail if it is not tracked. An operation that fails, or that binds a place which is
taken, leaves the session and its positions as they are, and all that follows is as if it had
not been tried. -/
theorem unchanged_of_refused {s : Indexed} (h : Indexed.start settings rules subtyping = .ok s)
    (ops : List Op) :
    let t := s.run ops
    let tracked := Enters settings rules ops
    t.toSession = s.toSession.run ops ∧
    (∀ id, (t.toSession.tracks id = true ↔ tracked id) ∧ (t.tracks id = true ↔ tracked id)) ∧
    (∀ id self className fault, t.track id self className = .error fault ↔
      ¬ Offers settings rules className ∧ fault = .unknownRule className ∨
      Offers settings rules className ∧ tracked id ∧ fault = .duplicateObject id) ∧
    (∀ id call fault, t.observe id call = .error fault ↔
      ¬ tracked id ∧ fault = .unknownObject id) ∧
    (∀ id b fault, t.bind id b = .error fault ↔ ¬ tracked id ∧ fault = .unknownObject id) ∧
    (∀ id b u, t.bind id b = .ok (u, false) ↔
      u = t ∧ ∃ o ∈ t.objects, o.id = id ∧ o.hasPlace b = true) ∧
    ∀ op, t.Refuses op →
      t.perform op = t ∧ ∀ more, s.run (ops ++ op :: more) = s.run (ops ++ more) := by
  intro t tracked
  obtain ⟨same, exact⟩ := (Indexed.exact_start h).run_eq ops
  have started : start settings rules subtyping = .ok s.toSession :=
    (Indexed.start_eq_ok_iff.mp h).1
  have kept : t.rules = s.rules := by
    rw [same]
    exact s.rules_run ops
  have offered (className : String) :
      (s.rules.get? className).isSome = true ↔ Offers settings rules className := by
    rw [eq_of_start started]
    exact isSome_get?_rulesFor_iff settings rules className
  have entered (id : String) : t.toSession.tracks id = true ↔ tracked id := by
    have unseen : s.toSession.tracks id = false := by
      rw [eq_of_start started]
      rfl
    rw [same, tracks_run_iff, unseen]
    simp only [offered, Bool.false_eq_true, false_or]
    rfl
  refine ⟨same, fun id => ⟨entered id, (exact.tracks_eq id) ▸ entered id⟩,
    fun id self className fault => ?_, fun id call fault => ?_, fun id b fault => ?_,
    exact.bind_eq_ok_false_iff, fun op refused => ?_⟩
  · rw [exact.track_eq_error_iff, track_eq_error_iff, kept, ← Bool.not_eq_true, offered, entered]
  · rw [exact.observe_eq_error_iff, observe_eq_error_iff, ← Bool.not_eq_true, entered]
  · rw [exact.bind_eq_error_iff, bind_eq_error_iff, ← Bool.not_eq_true, entered]
  · have unchanged : t.perform op = t := Indexed.perform_of_refuses exact refused
    refine ⟨unchanged, fun more => ?_⟩
    rw [Indexed.run_append, Indexed.run_cons, Indexed.run_append,
      show (s.run ops).perform op = s.run ops from unchanged]

/-! ## A type whose rule has moved -/

/-- A cipher that is accepted, and a wrapper that leads one method to two states. -/
def cipherAndFork : List Rule :=
  [cipherRule, { Rule.forkedCipher Rule.initKey Rule.initKey with className := "Wrapper" }]

def boundKey : Binding := ⟨"1", "key", .argument 0, [.unresolved]⟩

/-- A wrapper is tracked in vain, since strict settings have moved its rule. -/
def wrapperOps : List Op :=
  [.track "c" "c@1" "Cipher", .bind "c" boundKey, .track "w" "w@1" "Wrapper", .pass]

theorem unchanged_of_refused_wrapper :
    let book := cipherAndFork.foldl (fun b r => b.insert false r) .empty
    let s : Indexed := ⟨startedWith strictSettings cipherAndFork, []⟩
    let t := s.run wrapperOps
    let update : Call := ⟨"2", ⟨"Cipher", "update", []⟩, "Cipher"⟩
    let again : Binding := { boundKey with values := [] }
    Indexed.start strictSettings book exactTypes = .ok s ∧ book.rules.length = 2 ∧
      t.track "c" "c@2" "Wrapper" = .error (.unknownRule "Wrapper") ∧
      t.track "c" "c@2" "Cipher" = .error (.duplicateObject "c") ∧
      t.observe "w" update = .error (.unknownObject "w") ∧
      t.bind "c" again = .ok (t, false) ∧
      ∀ op ∈ [Op.track "c" "c@2" "Wrapper", .track "c" "c@2" "Cipher", .observe "w" update,
        .bind "c" again], t.perform op = t := by
  intro book s t update again
  have started : Indexed.start strictSettings book exactTypes = .ok s := rfl
  obtain ⟨-, -, track, observe, -, bind, unchanged⟩ := unchanged_of_refused started wrapperOps
  have cipher : Enters strictSettings book wrapperOps "c" :=
    ⟨"c@1", "Cipher", by simp [wrapperOps], by decide⟩
  have wrapper : ¬ Enters strictSettings book wrapperOps "w" := by
    rintro ⟨self, className, tracked, offered⟩
    simp only [wrapperOps, List.mem_cons, Op.track.injEq, reduceCtorEq, List.not_mem_nil, or_false,
      false_or] at tracked
    obtain ⟨other, -⟩ | ⟨-, -, rfl⟩ := tracked
    · exact absurd other (by decide)
    · exact absurd offered (by decide)
  have unknown := (track "c" "c@2" "Wrapper" _).mpr (.inl ⟨by decide, rfl⟩)
  have duplicate := (track "c" "c@2" "Cipher" _).mpr (.inr ⟨by decide, cipher, rfl⟩)
  have unseen := (observe "w" update _).mpr ⟨wrapper, rfl⟩
  have taken := (bind "c" again t).mpr ⟨rfl, by decide⟩
  refine ⟨started, by decide, unknown, duplicate, unseen, taken, fun op hop => ?_⟩
  have refused : t.Refuses op := by
    simp only [List.mem_cons, List.not_mem_nil, or_false] at hop
    obtain rfl | rfl | rfl | rfl := hop
    · exact ⟨_, unknown⟩
    · exact ⟨_, duplicate⟩
    · exact ⟨_, unseen⟩
    · exact .inr ⟨_, taken⟩
  exact (unchanged op refused).1

end Session

end Misuse
