import Misuse.Proofs.Order
import Misuse.Session.Indexed

/-!
# Objects found by position

While the positions of a session are exact, each of its operations does what it does to a session
without positions, where objects are found by a search (`Indexed.perform_eq`). They are exact at the
start, and every operation leaves them so. So a run of a session with positions is a run of the
session without them (`Indexed.run_eq`), the positions find what a search does
(`Indexed.object?_eq`), and the last report is the same (`Indexed.finish_eq`).
-/

namespace Misuse.Session

/-! ## Ids -/

theorem tracks_congr {s t : Session} (h : t.objects.map Tracked.id = s.objects.map Tracked.id)
    (id : String) : t.tracks id = s.tracks id := by
  rw [Bool.eq_iff_iff, tracks_eq_true_iff, tracks_eq_true_iff, h]

theorem ids_update (s : Session) (id : String) {f : Tracked → Tracked} (hf : ∀ o, (f o).id = o.id) :
    (s.update id f).objects.map Tracked.id = s.objects.map Tracked.id := by
  simp only [update, List.map_map]
  refine List.map_congr_left fun o _ => ?_
  simp only [Function.comp_apply]
  split
  · exact hf o
  · rfl

theorem ids_drain (s : Session) :
    s.drain.1.objects.map Tracked.id = s.objects.map Tracked.id := by
  simp [drain_fst]

theorem ids_applyCalls (s : Session) :
    s.applyCalls.1.objects.map Tracked.id = s.objects.map Tracked.id := by
  simp [applyCalls, Tracked.applyQueued_eq]

theorem ids_askAll (s : Session) (qs : List Query) :
    (s.askAll qs).1.objects.map Tracked.id = s.objects.map Tracked.id := by
  simp [askAll_fst]

theorem ids_perform (s : Session) {op : Op}
    (h : ∀ id self className, op ≠ .track id self className) :
    (s.perform op).objects.map Tracked.id = s.objects.map Tracked.id := by
  cases op with
  | track id self className => exact absurd rfl (h id self className)
  | observe id call =>
    simp only [perform, observe]
    split
    · exact s.ids_update id fun _ => rfl
    · rfl
  | bind id b =>
    simp only [perform, bind]
    split
    · rfl
    · exact s.ids_update id fun o => by rw [Tracked.bind_eq]
  | supply q values => rfl
  | resolveAll answer? =>
    obtain ⟨registry, inbox, he⟩ := s.resolveAll_eq answer?
    rw [perform, he]
  | pass => exact s.ids_pass

/-- The only object with an id is the one at its position. -/
theorem update_of_getElem? {s : Session} (distinct : (s.objects.map Tracked.id).Nodup) {i : Nat}
    {o : Tracked} (ho : s.objects[i]? = some o) (f : Tracked → Tracked) :
    s.update o.id f = { s with objects := s.objects.set i (f o) } := by
  obtain ⟨inside, rfl⟩ := List.getElem?_eq_some_iff.mp ho
  have place : i < (s.objects.map Tracked.id).length := by simpa using inside
  have same : (s.objects.map fun x => if x.id == s.objects[i].id then f x else x) =
      s.objects.set i (f s.objects[i]) := by
    refine List.ext_getElem? fun j => ?_
    rw [List.getElem?_map, List.getElem?_set]
    by_cases hij : i = j
    · subst hij
      simp [inside]
    · rw [if_neg hij]
      cases hx : s.objects[j]? with
      | none => rfl
      | some x =>
        have other : x.id ≠ s.objects[i].id := by
          intro same
          exact hij ((List.getElem?_inj place distinct).mp (by simp [hx, inside, same]))
        simp [other]
  rw [update, same]

/-- A pass takes in bindings in any way that does what a search for their objects does. -/
theorem passBy_eq_pass {s : Session} {d : Session → Session × Nat}
    (h : ∀ t : Session, t.objects.map Tracked.id = s.objects.map Tracked.id → d t = t.drain) :
    s.passBy d = s.pass := by
  have early : d { s with passes := s.passes + 1 } = drain { s with passes := s.passes + 1 } :=
    h _ rfl
  simp only [pass, passBy, early]
  rw [h]
  rw [ids_askAll, ids_applyCalls, ids_drain]

namespace Indexed

variable {s : Indexed}

/-- The position of every object is entered, and no other. -/
def Exact (s : Indexed) : Prop := s.positions.Exact (s.objects.map Tracked.id)

namespace Exact

variable (h : s.Exact)
include h

theorem tracks_eq (id : String) : s.tracks id = s.toSession.tracks id := by
  have untracked : s.positions.get? id = none ↔ s.toSession.tracks id = false := by
    rw [h.get?_eq_none_iff, ← Bool.not_eq_true, tracks_eq_true_iff]
  rw [Indexed.tracks, Bool.eq_iff_iff, ← not_iff_not, Bool.not_eq_true, Bool.not_eq_true,
    ← untracked, Option.isSome_eq_false_iff, Option.isNone_iff_eq_none]

/-- What the positions find is what a search finds. -/
theorem change?_eq (id : String) (f : Tracked → Tracked) :
    s.change? id f = (s.toSession.object? id).map fun o =>
      ({ s with toSession := s.toSession.update id f }, o) := by
  rw [change?]
  cases hp : s.positions.get? id with
  | none =>
    have untracked : s.toSession.object? id = none := by
      have unseen := h.tracks_eq id
      simpa [Indexed.tracks, Session.tracks, hp] using unseen
    rw [untracked]
    rfl
  | some i =>
    obtain ⟨o, ho, rfl⟩ : ∃ o, s.objects[i]? = some o ∧ o.id = id := by
      simpa [Option.map_eq_some_iff] using (h id i).mp hp
    have found := (object?_eq_some_iff h.nodup o).mpr (List.mem_of_getElem? ho)
    rw [found, update_of_getElem? h.nodup ho, Option.bind_some, ho]
    rfl

/-- What the positions find is what a search finds. -/
theorem object?_eq (id : String) : s.object? id = s.toSession.object? id := by
  have same := congrArg (Option.map Prod.snd) (h.change?_eq id fun o => o)
  simpa [Indexed.object?, change?, Option.map_bind, Function.comp_def] using same

/-! ### Operations -/

theorem track_eq (id self className : String) :
    s.track id self className = (s.toSession.track id self className).map fun t =>
      ⟨t, s.positions.enter id s.objects.length⟩ := by
  rw [Indexed.track, Session.track, h.tracks_eq]
  cases s.rules.get? className with
  | none => rfl
  | some rule => cases s.toSession.tracks id <;> rfl

theorem observe_eq (id : String) (call : Call) :
    s.observe id call = (s.toSession.observe id call).map fun t => { s with toSession := t } := by
  rw [Indexed.observe, h.change?_eq, Session.observe, Session.tracks]
  cases s.toSession.object? id <;> rfl

theorem bind_eq (id : String) (b : Binding) :
    s.bind id b = (s.toSession.bind id b).map fun (t, added) =>
      ({ s with toSession := t }, added) := by
  rw [Indexed.bind, h.change?_eq, Session.bind]
  cases s.toSession.object? id <;> rfl

/-- Nothing is entered if no object is added or moved. -/
theorem of_ids {t : Session} (ids : t.objects.map Tracked.id = s.objects.map Tracked.id) :
    Exact { s with toSession := t } := by
  rw [Exact, ids]
  exact h

theorem deliver_eq (n : Nat) (d : Delivery String) :
    deliver (s, n) d =
      ({ s with toSession := (Session.deliver (s.toSession, n) d).1 },
        (Session.deliver (s.toSession, n) d).2) := by
  rw [deliver, h.bind_eq, Session.deliver]
  cases s.toSession.bind d.target d.binding <;> rfl

theorem foldl_deliver_eq (ds : List (Delivery String)) (n : Nat) :
    ds.foldl deliver (s, n) =
      ({ s with toSession := (ds.foldl Session.deliver (s.toSession, n)).1 },
        (ds.foldl Session.deliver (s.toSession, n)).2) := by
  induction ds generalizing s n with
  | nil => rfl
  | cons d ds ih =>
    rw [List.foldl_cons, h.deliver_eq, ih (h.of_ids ?_)]
    · rfl
    · rw [fst_deliver]
      exact ids_update _ _ fun o => by rw [Tracked.bind_eq]

theorem drain_eq : s.drain = ({ s with toSession := s.toSession.drain.1 }, s.toSession.drain.2) :=
  Exact.foldl_deliver_eq (s := { s with inbox := [] }) h s.inbox 0

theorem pass_eq : s.pass = ({ s with toSession := s.toSession.pass.1 }, s.toSession.pass.2) := by
  rw [pass, passBy_eq_pass fun t ids => ?_]
  rw [(h.of_ids ids).drain_eq]

/-- The last report is the one without positions. -/
theorem finish_eq : s.finish = s.toSession.finish := by
  rw [Indexed.finish, h.pass_eq, Session.finish]

end Exact

/-! ## Runs -/

/-- The session after an operation: the same one if the operation fails. -/
def perform (s : Indexed) : Op → Indexed
  | .track id self className => (s.track id self className).toOption.getD s
  | .observe id call => (s.observe id call).toOption.getD s
  | .bind id b => ((s.bind id b).toOption.map Prod.fst).getD s
  | .supply q values => (s.supply q values).1
  | .resolveAll answer? => s.resolveAll answer?
  | .pass => s.pass.1

def run (s : Indexed) (ops : List Op) : Indexed := ops.foldl perform s

theorem run_append (s : Indexed) (ops more : List Op) :
    s.run (ops ++ more) = (s.run ops).run more := List.foldl_append ..

theorem run_cons (s : Indexed) (op : Op) (ops : List Op) :
    s.run (op :: ops) = (s.perform op).run ops := rfl

namespace Exact

variable (h : s.Exact)
include h

/-- Tracking enters a new id with the position at the end. -/
theorem perform_track (id self className : String) :
    (s.perform (.track id self className)).toSession =
        s.toSession.perform (.track id self className) ∧
      (s.perform (.track id self className)).Exact := by
  rw [Indexed.perform, Session.perform, h.track_eq, Session.track]
  cases s.rules.get? className with
  | none => exact ⟨rfl, h⟩
  | some rule =>
    cases ht : s.toSession.tracks id with
    | true => exact ⟨rfl, h⟩
    | false =>
      have fresh : id ∉ s.objects.map Tracked.id := by
        rw [← tracks_eq_true_iff, ht]
        exact Bool.false_ne_true
      refine ⟨rfl, ?_⟩
      show (s.positions.enter id s.objects.length).Exact
        ((s.objects ++ [Tracked.start id self rule]).map Tracked.id)
      have entered := Positions.Exact.enter h fresh
      rw [List.length_map] at entered
      rw [List.map_append]
      exact entered

/-- **An operation does what it does without positions.** -/
theorem perform_eq (op : Op) :
    (s.perform op).toSession = s.toSession.perform op ∧ (s.perform op).Exact := by
  have other (same : s.perform op = { s with toSession := s.toSession.perform op })
      (untracked : ∀ id self className, op ≠ .track id self className) :
      (s.perform op).toSession = s.toSession.perform op ∧ (s.perform op).Exact := by
    rw [same]
    exact ⟨rfl, h.of_ids (s.toSession.ids_perform untracked)⟩
  cases op with
  | track id self className => exact h.perform_track id self className
  | observe id call =>
    refine other ?_ (by simp)
    rw [Indexed.perform, Session.perform, h.observe_eq]
    cases s.toSession.observe id call <;> rfl
  | bind id b =>
    refine other ?_ (by simp)
    rw [Indexed.perform, Session.perform, h.bind_eq]
    cases s.toSession.bind id b <;> rfl
  | supply q values => exact other rfl (by simp)
  | resolveAll answer? => exact other rfl (by simp)
  | pass =>
    refine other ?_ (by simp)
    rw [Indexed.perform, Session.perform, h.pass_eq]

theorem run_eq (ops : List Op) :
    (s.run ops).toSession = s.toSession.run ops ∧ (s.run ops).Exact := by
  induction ops generalizing s with
  | nil => exact ⟨rfl, h⟩
  | cons op ops ih =>
    obtain ⟨same, exact⟩ := h.perform_eq op
    rw [run_cons, Session.run_cons, ← same]
    exact ih exact

end Exact

theorem start_eq_ok_iff {settings : Settings} {rules : Rulebook} {subtyping : Subtyping}
    {s : Indexed} : start settings rules subtyping = .ok s ↔
      Session.start settings rules subtyping = .ok s.toSession ∧ s.positions = [] := by
  obtain ⟨t, positions⟩ := s
  rw [start]
  cases Session.start settings rules subtyping with
  | error fault => exact ⟨nofun, nofun⟩
  | ok u => simp [Except.map, eq_comm]

theorem exact_start {settings : Settings} {rules : Rulebook} {subtyping : Subtyping} {s : Indexed}
    (h : start settings rules subtyping = .ok s) : s.Exact := by
  obtain ⟨started, unentered⟩ := start_eq_ok_iff.mp h
  rw [Exact, unentered, eq_of_start started]
  exact Positions.exact_nil

end Indexed

end Misuse.Session
