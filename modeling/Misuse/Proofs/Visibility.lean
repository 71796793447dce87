import Misuse.Proofs.Lookups
import Misuse.Proofs.Reads

/-!
# What a judgement looks up

A judgement asks the store about the names that the constraints look up, those in guards
included, and about nothing else (`judgeOnly_withLookup`). A store answers from the argument
lists that are visible in it. So two sessions in which the same lists are visible under these
names judge an object alike, however different their logs are (`judgement_of_visible`).
-/

namespace Misuse

namespace Rule

/-- The names of the facts that the constraints look up. -/
def constraintNames (r : Rule) : List String := r.constraints.flatMap Constraint.namesLookedUp

theorem name_mem_constraintNames {r : Rule} {c : Constraint} (hc : c ∈ r.constraints)
    {p : Predicate} (hp : p ∈ c.predicates) (hlookup : p.isLookup = true) :
    p.atom.name ∈ r.constraintNames :=
  List.mem_flatMap.mpr ⟨c, hc, List.mem_map.mpr ⟨p, List.mem_filter.mpr ⟨hp, hlookup⟩, rfl⟩⟩

variable {r : Rule} {ctx : Context} {lookup : Lookup}

/-- The lookups answer alike for the predicates of a constraint. -/
def AnswerAlike (ctx : Context) (lookup : Lookup) (c : Constraint) : Prop :=
  ∀ p ∈ c.predicates, p.isLookup = true → ctx.lookup p ctx.view = lookup p ctx.view

theorem directRecord?_withLookup {c : Constraint} (h : AnswerAlike ctx lookup c) :
    r.directRecord? (ctx.withLookup lookup) c = r.directRecord? ctx c := by
  unfold directRecord?
  rw [← c.evaluate_congr ctx lookup h]
  rfl

theorem requiredRecord?_withLookup {c : Constraint} (h : AnswerAlike ctx lookup c) {q : Required}
    (hq : Requirement.ofConstraint? c = some q.requirement) :
    r.requiredRecord? (ctx.withLookup lookup) q = r.requiredRecord? ctx q := by
  have truths : q.requirement.members.map (fun p => (p.evaluate (ctx.withLookup lookup)).truth) =
      q.requirement.members.map fun p => (p.evaluate ctx).truth := by
    refine List.map_congr_left fun p hp => congrArg Verdict.truth ?_
    refine (p.toConstraint.evaluate_congr ctx lookup fun p' hp' => ?_).symm
    exact h p' (Requirement.predicates_of_mem_members hq p hp p' hp')
  have truth : requirementTruth (ctx.withLookup lookup) q.requirement =
      requirementTruth ctx q.requirement := by
    simp only [requirementTruth, truths]
  unfold requiredRecord?
  rw [truth]
  rfl

/-- **A judgement depends on what the constraints look up.** -/
theorem judgeOnly_withLookup (policy : Policy) (h : ∀ c ∈ r.constraints, AnswerAlike ctx lookup c)
    (indices : List Nat) :
    r.judgeOnly policy (ctx.withLookup lookup) indices = r.judgeOnly policy ctx indices := by
  have direct (indices : List Nat) :
      r.directRecords (ctx.withLookup lookup) indices = r.directRecords ctx indices := by
    refine List.filterMap_congr fun i _ => ?_
    cases hi : r.constraints[i]? with
    | none => rfl
    | some c => exact directRecord?_withLookup (h c (List.mem_of_getElem? hi))
  have required :
      r.requiredRecords (ctx.withLookup lookup) (policy.partition r ctx.view indices).required =
        r.requiredRecords ctx (policy.partition r ctx.view indices).required := by
    refine List.filterMap_congr fun q hq => ?_
    obtain ⟨c, hc, hof⟩ := Policy.exists_of_mem_required hq
    exact requiredRecord?_withLookup (h c (List.mem_of_getElem? hc)) hof
  unfold judgeOnly
  simp only [direct]
  exact congrArg (fun records => (⟨_ ++ records, _⟩ : Judgement)) required

end Rule

namespace Session

/-- Objects are judged alike if they are seen alike and the stores answer alike. -/
theorem judgement_of_same {s t : Session} (hc : s.settings.constraints = t.settings.constraints)
    (hsub : s.subtyping = t.subtyping) {o o' : Tracked} (hr : o.rule = o'.rule)
    (hv : o.view = o'.view)
    (hs : ∀ name ∈ o.rule.constraintNames, s.store.Same t.store name) :
    s.judgement o = t.judgement o' := by
  have answers : ∀ c ∈ o.rule.constraints, Rule.AnswerAlike (s.context s.store o)
      (t.store.lookup t.settings.constraints.maxCombinations) c := by
    intro c hmem p hp hlookup
    rw [← hc]
    exact FactStore.lookup_congr (hs _ (Rule.name_mem_constraintNames hmem hp hlookup)) _ _
  have context : (s.context s.store o).withLookup
      (t.store.lookup t.settings.constraints.maxCombinations) = t.context t.store o' := by
    simp only [Session.context, ConstraintSettings.context, Context.withLookup, hc, hsub, hv]
  have judged := Rule.judgeOnly_withLookup s.settings.constraints.policy answers
    o.rule.constraintIndices
  rw [context] at judged
  unfold judgement
  rw [← hr, ← hc]
  exact judged.symm

/-- **Objects are judged alike if the same facts are visible to them.** -/
theorem judgement_of_visible {s t : Session} (hs : s.store.Agrees) (ht : t.store.Agrees)
    (hc : s.settings.constraints = t.settings.constraints) (hsub : s.subtyping = t.subtyping)
    {o o' : Tracked} (hr : o.rule = o'.rule) (hv : o.view = o'.view)
    (visible : ∀ name ∈ o.rule.constraintNames, s.store.visible name = t.store.visible name) :
    s.judgement o = t.judgement o' :=
  judgement_of_same hc hsub hr hv fun name hn =>
    FactStore.same_of_visible hs ht (visible name hn)

end Session

end Misuse
