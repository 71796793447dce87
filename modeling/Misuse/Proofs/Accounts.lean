import Misuse.Proofs.Fates
import Misuse.Proofs.Repetition
import Misuse.Proofs.Tallies

/-!
# What passes account for

The summaries of the passes of a run account for all that the session holds in the end
(`accounts_of_start`): the calls, the bindings, the queries and the facts are each counted once,
and every effect is published, dropped or still held back.
-/

namespace Misuse.Session

/-- The passes of a run, with the bindings added at once, account for what the session holds
after it. -/
structure Accounts (s : Session) (ops : List Op) : Prop where
  /-- The calls that are counted are those applied. -/
  calls : s.summed PassSummary.callsApplied ops = (s.run ops).total fun o => o.calls.length
  /-- The bindings that are counted are those held. -/
  bindings : s.summed PassSummary.bindingsReceived ops + s.boundAtOnce ops =
    (s.run ops).total fun o => o.bindings.length
  /-- The queries that are counted are those asked before they had an answer. -/
  queries : ∃ asked : List Query, asked.Nodup ∧
    (∀ q, q ∈ asked ↔ (s.run ops).Asks q ∧ ¬s.AnsweredUnasked ops q) ∧
    s.summed PassSummary.queriesAsked ops = asked.length
  /-- The facts and retractions that are counted are the entries of the store. -/
  facts : s.summed PassSummary.factsPublished ops + s.summed PassSummary.retractions ops =
    (s.run ops).store.size
  /-- Each effect that calls brought about was published once, dropped once or is held back. -/
  effects : ∀ o ∈ (s.run ops).objects, (o.raised s.matcher).Perm
    (Turn.triggersOf Fate.isPublished o.id (s.history ops) ++
      Turn.triggersOf Fate.isDropped o.id (s.history ops) ++ o.due)
  /-- Effects are dropped because of a false guard. -/
  dropped : ∀ x ∈ s.history ops, x.fate = .dropped →
    ∃ e, x.rule.effects[x.trigger.effect]? = some e ∧ guardTruth x.context e.predicate = .no
  /-- The entries of the store are those published at the turns of effects. -/
  published : (s.run ops).store.log.Perm ((s.history ops).flatMap fun x => x.fate.facts)

variable {settings : Settings} {rules : Rulebook} {subtyping : Subtyping} {s : Session}

/-- **Pass summaries account for everything exactly once.** -/
theorem accounts_of_start (h : start settings rules subtyping = .ok s) (ops : List Op) :
    s.Accounts ops := by
  have chronicle := chronicle_start h
  have nothing : s.objects = [] ∧ s.store = .empty := by
    rw [eq_of_start h]
    exact ⟨rfl, rfl⟩
  obtain ⟨objects, store⟩ := nothing
  have unasked : ∀ q, ¬s.Asks q := by
    rintro q ⟨o, ho, -⟩
    rw [objects] at ho
    cases ho
  have none (f : Tracked → Nat) : s.total f = 0 := by
    rw [total_eq, objects]
    rfl
  have turned := (turned_start h).run chronicle ops
  have matcher : (s.run ops).matcher = s.matcher := matcher_eq_of_frame (s.frame_run ops)
  constructor
  case calls =>
    have := along_eq (fun s => s.total fun o => o.calls.length)
      (fun s op _ => s.calls_perform op) chronicle ops
    simpa [none, summed] using this.symm
  case bindings =>
    have := along_eq bound bindings_perform chronicle ops
    rw [along_add, bound, bound, none, Nat.zero_add] at this
    exact this.symm
  case queries => exact exists_queries_run chronicle (ledger_start h) unasked ops
  case facts =>
    have := along_eq (fun s => s.store.size) (fun s op _ => s.facts_perform op)
      chronicle ops
    rw [along_add, store, show FactStore.empty.size = 0 from rfl, Nat.zero_add] at this
    exact this.symm
  case effects =>
    have := turned.objects
    rwa [List.nil_append, matcher] at this
  case dropped => exact fun x hx hdropped => turned.exists_effect (by simpa using hx) hdropped
  case published => exact turned.log

/-- A cipher for DES has its effect dropped, and one for AES has it published. The second
cipher has its algorithm bound at once, although its query was answered before it was asked. -/
def countedOps : List Op :=
  [.track "c" "c@1" "Cipher", .observe "c" ⟨"1", ⟨"Cipher", "init", ["String"]⟩, "Cipher"⟩,
   .pass, .supply ⟨"c", "1", "alg", .argument 0⟩ [⟨.constant (.text "DES"), none⟩], .pass,
   .track "d" "d@1" "Cipher",
   .bind "d" ⟨"2", "alg", .argument 0, [⟨.constant (.text "AES"), none⟩]⟩,
   .supply ⟨"d", "2", "alg", .argument 0⟩ [⟨.constant (.text "DES"), none⟩],
   .observe "d" ⟨"2", ⟨"Cipher", "init", ["String"]⟩, "Cipher"⟩, .pass]

theorem accounts_of_start_counted :
    start guardedSession.settings guardedSession.rules guardedSession.subtyping =
        .ok guardedSession ∧
      guardedSession.Accounts countedOps ∧
      guardedSession.summed PassSummary.callsApplied countedOps = 2 ∧
      guardedSession.summed PassSummary.bindingsReceived countedOps = 1 ∧
      guardedSession.boundAtOnce countedOps = 1 ∧
      guardedSession.summed PassSummary.queriesAsked countedOps = 1 ∧
      guardedSession.summed PassSummary.factsPublished countedOps = 1 ∧
      Turn.triggersOf Fate.isDropped "c" (guardedSession.history countedOps) = [⟨0, "ready", "1"⟩] ∧
      Turn.triggersOf Fate.isPublished "d" (guardedSession.history countedOps) =
        [⟨0, "ready", "2"⟩] := by
  have started : start guardedSession.settings guardedSession.rules guardedSession.subtyping =
      .ok guardedSession := rfl
  exact ⟨started, accounts_of_start started countedOps, by decide +kernel, by decide +kernel,
    by decide +kernel, by decide +kernel, by decide +kernel, by decide +kernel,
    by decide +kernel⟩

end Misuse.Session
