import Misuse.Proofs.Lateness

/-!
# Retractions

Within a pass the retractions come last, whichever objects they come from and however long they
were held back (`Session.log_pass`). So what a pass retracts is hidden while its constraints are
judged and when it is over, also where another object establishes it in the same pass
(`Session.retractions_prevail`).
-/

namespace Misuse

namespace FactStore

/-- A query that a store answers with yes finds a list that no later retraction covers. -/
theorem Agrees.exists_uncovered_of_query {s : FactStore} (h : s.Agrees) {fs : List Fact}
    {name : String} {q : Args} (hq : (s.retractAll fs).query name q = true) :
    ∃ args ∈ (s.retractAll fs).visible name, Args.unify args q = true ∧
      ∀ f ∈ fs, f.name = name → Args.cover f.args args = false := by
  obtain ⟨args, hargs, unify⟩ := ((h.retractAll fs).query_eq_true_iff name q).mp hq
  exact ⟨args, hargs, unify, ((h.mem_visible_retractAll fs name args).mp hargs).2⟩

end FactStore

namespace Session

variable {s : Session}

/-- **Retractions prevail.** A pass of a session publishes facts and after them retractions. When
its constraints are judged, and when it is over, no visible list is covered by one of these
retractions, and what a query finds is not covered either. -/
theorem retractions_prevail {settings : Settings} {rules : Rulebook} {subtyping : Subtyping}
    (started : start settings rules subtyping = .ok s) (ops : List Op) :
    let t := s.run ops
    let judged := t.prepare.publish.1
    t.pass.1 = judged.judge ∧ judged.store = t.pass.1.store ∧
      ∃ published retracted : List Fact,
        t.pass.1.store.log = t.store.log ++ published ++ retracted ∧
        (∀ f ∈ published, f.negated = false) ∧ (∀ f ∈ retracted, f.negated = true) ∧
        t.pass.2.factsPublished = published.length ∧ t.pass.2.retractions = retracted.length ∧
        ∀ f ∈ retracted,
          (∀ args ∈ judged.store.visible f.name, Args.cover f.args args = false) ∧
          ∀ q, judged.store.query f.name q = true →
            ∃ args ∈ judged.store.visible f.name, Args.unify args q = true ∧
              Args.cover f.args args = false := by
  intro t judged
  have agrees : t.store.Agrees := agrees_run (store_start started ▸ FactStore.agrees_empty) ops
  have grows := t.prepare.publication_grows
  have store : judged.store =
      (t.store.publishAll t.prepare.established).retractAll t.prepare.withdrawn := by
    rw [← t.store_prepare, show judged = _ from t.prepare.publish_fst]
  have before := agrees.publishAll t.prepare.established
  refine ⟨t.pass_fst, t.store_pass_eq.symm, t.prepare.established, t.prepare.withdrawn,
    t.log_pass, grows.positive, grows.negative, t.counts_pass.1, t.counts_pass.2,
    fun f hf => ⟨fun args hargs => ?_, ?_⟩⟩
  · rw [store] at hargs
    exact ((before.mem_visible_retractAll _ _ _).mp hargs).2 f hf rfl
  · intro q hq
    rw [store] at hq ⊢
    obtain ⟨args, hargs, unify, uncovered⟩ := before.exists_uncovered_of_query hq
    exact ⟨args, hargs, unify, uncovered f hf rfl⟩

/-! ## Two vaults -/

/-- The key of one vault is destroyed, and with it every key that is held. Another vault is
tracked after it. -/
def twoVaultsOps : List Op :=
  storeOps ++
    [destroyOp, answerKey, .track "w" "w@1" "Vault",
     .observe "w" ⟨"3", ⟨"Vault", "store", ["Key", "String"]⟩, "Vault"⟩,
     .supply ⟨"w", "3", "key", .argument 0⟩ [⟨.object "k@2", none⟩]]

theorem retractions_prevail_vaults :
    let s := vaultSession [heldKey, noneHeld]
    start s.settings s.rules s.subtyping = .ok s ∧
      (s.run twoVaultsOps).pass.1.store.log.map Fact.display =
        ["held[k@1]", "held[k@2]", "!held[_]"] ∧
      ∃ published retracted : List Fact,
        (s.run twoVaultsOps).pass.1.store.log =
          (s.run twoVaultsOps).store.log ++ published ++ retracted ∧
        published.length = 2 ∧ retracted.length = 1 ∧
        ∀ f ∈ retracted, ∀ args ∈ (s.run twoVaultsOps).pass.1.store.visible f.name,
          Args.cover f.args args = false := by
  intro s
  have started : start s.settings s.rules s.subtyping = .ok s := rfl
  obtain ⟨-, store, published, retracted, log, -, -, facts, retractions, hidden⟩ :=
    retractions_prevail started twoVaultsOps
  refine ⟨started, by decide, published, retracted, log, ?_, ?_, fun f hf => ?_⟩
  · rw [← facts]
    decide
  · rw [← retractions]
    decide
  · rw [← store]
    exact (hidden f hf).1

end Session

end Misuse
