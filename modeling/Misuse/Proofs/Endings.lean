import Misuse.Proofs.Answers
import Misuse.Proofs.Reads

/-!
# Unanswered queries at the end

A session ends with one last pass. Every constraint of an object is judged in it or waits for
a variable, so it leaves a record unless it holds for the values that are bound
(`mem_judge`). One that waits for an unanswered query leaves an advisory
(`recorded_of_unanswered`). A constraint whose variables are all bound, or only identify, is
judged as it stands, whatever its other queries are answered later (`silent_of_unanswered`).
-/

namespace Misuse

namespace Constraint

/-- What is made of a constraint whose variables are bound. -/
def judged (ctx : Context) (c : Constraint) : Truth :=
  match Requirement.ofConstraint? c with
  | some q => Rule.requirementTruth ctx q
  | none => (c.evaluate ctx).truth

/-- What the record of a constraint names once its variables are bound. -/
def subject (c : Constraint) : String :=
  match Requirement.ofConstraint? c with
  | some q => q.display
  | none => c.display

end Constraint

namespace Violation

/-- A record of a constraint: it fails, its predicate is missing, or its values are not
known. -/
def IsVerdict (v : Violation) : Prop :=
  v.kind = .constraint ∨ v.kind = .missingPredicate ∨ v.kind = .impreciseValue

/-- A record about one constraint of one object. -/
def IsAbout (v : Violation) (o : Tracked) (c : Constraint) : Prop :=
  v.rule = o.rule.className ∧ v.object = some o.id ∧ v.IsVerdict ∧
    (v.subject = some c.display ∨ v.subject = some c.subject)

instance (v : Violation) : Decidable v.IsVerdict :=
  inferInstanceAs (Decidable (_ ∨ _ ∨ _))

instance (v : Violation) (o : Tracked) (c : Constraint) : Decidable (v.IsAbout o c) :=
  inferInstanceAs (Decidable (_ ∧ _ ∧ _ ∧ (_ ∨ _)))

theorem IsAbout.of_key {v w : Violation} {o : Tracked} {c : Constraint} (h : v.IsAbout o c)
    (hk : w.key = v.key) : w.IsAbout o c := by
  have field {β : Type} (f : Key → β) : f w.key = f v.key := congrArg f hk
  have kind : w.kind = v.kind := field Key.kind
  have rule : w.rule = v.rule := field Key.rule
  have object : w.object = v.object := field Key.object
  have subject : w.subject = v.subject := field Key.subject
  unfold IsAbout IsVerdict
  rw [kind, rule, object, subject]
  exact h

end Violation

/-! ## Judging one constraint -/

namespace Rule

variable {r : Rule} {i : Nat} {c : Constraint}

/-- A constraint with a variable that is not bound is handed back. -/
theorem mem_pending_judge (policy : Policy) (ctx : Context) (hi : r.constraints[i]? = some c)
    (hc : c.isThrows = false) (hready : policy.isReady ctx.view c = false) :
    i ∈ (r.judge policy ctx).pending :=
  Policy.mem_pending_iff.mpr ⟨mem_constraintIndices hi, c, hi, hc, hready⟩

/-- A record of a rule about an object, naming its subject. -/
def Names (r : Rule) (object subject : String) (v : Violation) : Prop :=
  v.rule = r.className ∧ v.object = some object ∧ v.IsVerdict ∧ v.subject = some subject

theorem exists_directRecord {ctx : Context} (h : (c.evaluate ctx).truth ≠ .yes) :
    ∃ v, r.directRecord? ctx c = some v ∧ r.Names ctx.view.object c.display v := by
  unfold directRecord?
  cases ht : (c.evaluate ctx).truth with
  | yes => exact absurd ht h
  | no =>
    simp only [ht]
    exact ⟨_, rfl, rfl, rfl, .inl rfl, rfl⟩
  | unclear =>
    simp only [ht]
    exact ⟨_, rfl, rfl, rfl, .inr (.inr rfl), rfl⟩

theorem exists_requiredRecord {ctx : Context} {q : Required}
    (h : requirementTruth ctx q.requirement ≠ .yes) :
    ∃ v, r.requiredRecord? ctx q = some v ∧
      r.Names ctx.view.object q.requirement.display v := by
  unfold requiredRecord?
  cases ht : requirementTruth ctx q.requirement with
  | yes => exact absurd ht h
  | no => exact ⟨_, rfl, rfl, rfl, .inr (.inl rfl), rfl⟩
  | unclear => exact ⟨_, rfl, rfl, rfl, .inr (.inr rfl), rfl⟩

/-- **A constraint whose variables are bound leaves a record unless it holds.** -/
theorem exists_record_judge (policy : Policy) (ctx : Context) (hi : r.constraints[i]? = some c)
    (hc : c.isThrows = false) (hready : policy.isReady ctx.view c = true)
    (hno : c.judged ctx ≠ .yes) :
    ∃ v ∈ (r.judge policy ctx).violations, r.Names ctx.view.object c.subject v := by
  unfold Constraint.judged at hno
  unfold Constraint.subject
  cases hq : Requirement.ofConstraint? c with
  | none =>
    rw [hq] at hno
    have direct : i ∈ (policy.partition r ctx.view r.constraintIndices).direct :=
      Policy.mem_direct_iff.mpr ⟨mem_constraintIndices hi, c, hi, hc, hready, hq⟩
    obtain ⟨v, hv, names⟩ := exists_directRecord (r := r) hno
    have recorded : (r.constraints[i]?).bind (r.directRecord? ctx) = some v := by
      rw [hi]
      exact hv
    exact ⟨v, List.mem_append_left _ (List.mem_filterMap.mpr ⟨i, direct, recorded⟩), names⟩
  | some q =>
    rw [hq] at hno
    have required := Policy.mem_required_of_ready (mem_constraintIndices hi) hi hc hready hq
    obtain ⟨v, hv, names⟩ :=
      exists_requiredRecord (r := r) (q := ⟨q, i, policy.anchor? ctx.view q⟩) hno
    exact ⟨v, List.mem_append_right _ (List.mem_filterMap.mpr ⟨_, required, hv⟩), names⟩

end Rule

namespace Session

/-! ## The last pass -/

/-- What is found in a pass is reported at the end. -/
theorem has_finish_of_mem_judgement {s : Session} {o : Tracked} (ho : o ∈ s.pass.1.objects)
    {v : Violation} (hv : v ∈ (s.pass.1.judgement o).violations) : s.finish.has v = true := by
  have found : s.pass.1.findings.has v = true := by
    rw [findings_pass, Report.has_extend]
    exact .inr ⟨v, List.mem_flatMap.mpr ⟨o, ho, hv⟩, rfl⟩
  obtain ⟨w, hw, hk⟩ := (Report.has_eq_true_iff _ v).mp found
  have reported : s.pass.1.report.has v = true := by
    rw [report, Report.merge, Report.has_extend]
    exact .inr ⟨w, hw, hk⟩
  rw [finish, Report.has_extend]
  exact .inl reported

/-- What an object waits for is reported at the end. -/
theorem has_finish_of_mem_unanswered {s : Session} {o : Tracked} (ho : o ∈ s.pass.1.objects)
    {v : Violation} (hv : v ∈ s.pass.1.unanswered o) : s.finish.has v = true := by
  rw [finish, Report.has_extend]
  refine .inr ⟨v, List.mem_flatMap.mpr ⟨o, ho, ?_⟩, rfl⟩
  exact List.mem_append_right _ hv

/-- A life ends outside the accepting states, or with constraints that wait. -/
theorem exists_of_mem_ending {s : Session} {o : Tracked} {v : Violation} (h : v ∈ s.ending o) :
    (∃ site expected, v = .incompleteOperation o.rule.className o.id site expected) ∨
      ∃ subject sites, v = .impreciseValue o.rule.className o.id subject sites := by
  rcases List.mem_append.mp h with h | h
  · unfold Rule.completionRecord? at h
    split at h
    · cases h
    · exact .inl ⟨_, _, List.mem_singleton.mp h⟩
  · obtain ⟨i, -, hi⟩ := List.mem_filterMap.mp h
    split at hi
    · cases hi
    · split at hi
      · exact .inr ⟨_, _, (Option.some.inj hi).symm⟩
      · cases hi

/-- A pass leaves with every object the constraints that are handed back. -/
theorem pending_pass {s : Session} {o : Tracked} (ho : o ∈ s.pass.1.objects) :
    o.pending = (s.pass.1.judgement o).pending := by
  rw [pass_fst] at ho ⊢
  generalize s.prepare.publish.1 = t at ho ⊢
  obtain ⟨a, -, rfl⟩ := List.mem_map.mp ho
  rfl

/-- **An unanswered query lets no constraint pass silently** that waits for it or does not hold.
Take an object at the end, a query of it that is unanswered, and a constraint that mentions
the variable of the query. The report has a record about the constraint, unless all its
variables are bound at some site, or only identify, and it holds for what is bound. -/
theorem recorded_of_unanswered (s : Session) :
    ∀ o ∈ s.pass.1.objects, ∀ q ∈ s.pass.1.registry.pending, q.object = o.id →
      ∀ c ∈ o.rule.constraints, c.isThrows = false → q.var ∈ c.mentions →
        (s.pass.1.settings.constraints.policy.isReady o.view c = true ∧
            c.judged (s.pass.1.context s.pass.1.store o) = .yes) ∨
          ∃ v ∈ s.finish.records, v.IsAbout o c := by
  intro o ho q hq hobject c hc hthrows hvar
  obtain ⟨i, hi⟩ := List.mem_iff_getElem?.mp hc
  have recorded : ∀ v, s.finish.has v = true → v.IsAbout o c →
      ∃ w ∈ s.finish.records, w.IsAbout o c := by
    intro v hv about
    obtain ⟨w, hw, hk⟩ := (Report.has_eq_true_iff _ v).mp hv
    exact ⟨w, hw, about.of_key hk⟩
  cases hready : s.pass.1.settings.constraints.policy.isReady o.view c with
  | false =>
    have waits : i ∈ o.pending := by
      rw [pending_pass ho]
      exact Rule.mem_pending_judge _ (s.pass.1.context s.pass.1.store o) hi hthrows hready
    have waiting : q.var ∈ s.pass.1.waitingVars o.id :=
      List.mem_map_of_mem (List.mem_filter.mpr ⟨hq, beq_iff_eq.mpr hobject⟩)
    have mentioned : c.mentions.any (s.pass.1.waitingVars o.id).contains = true :=
      List.any_eq_true.mpr ⟨q.var, hvar, List.contains_iff_mem.mpr waiting⟩
    have advisory : Violation.impreciseValue o.rule.className o.id c.display o.lastSite?.toList ∈
        s.pass.1.unanswered o := by
      refine List.mem_filterMap.mpr ⟨i, waits, ?_⟩
      simp only [hi, mentioned, ↓reduceIte]
    exact .inr (recorded _ (has_finish_of_mem_unanswered ho advisory)
      ⟨rfl, rfl, .inr (.inr rfl), .inl rfl⟩)
  | true =>
    by_cases hyes : c.judged (s.pass.1.context s.pass.1.store o) = .yes
    · exact .inl ⟨rfl, hyes⟩
    · obtain ⟨v, hv, hrule, hobj, hverdict, hsubject⟩ :=
        Rule.exists_record_judge _ (s.pass.1.context s.pass.1.store o) hi hthrows hready hyes
      exact .inr (recorded v (has_finish_of_mem_judgement ho hv)
        ⟨hrule, hobj, hverdict, .inr hsubject⟩)

/-- Nothing is known of the algorithm of a cipher, and that is reported. -/
theorem recorded_of_unanswered_init :
    let s := resetSession.run (initOps.take 2)
    ∃ o ∈ s.pass.1.objects, ∃ c ∈ o.rule.constraints, ∃ v ∈ s.finish.records, v.IsAbout o c := by
  intro s
  have unanswered : ∃ o ∈ s.pass.1.objects, ∃ q ∈ s.pass.1.registry.pending, q.object = o.id ∧
      ∃ c ∈ o.rule.constraints, c.isThrows = false ∧ q.var ∈ c.mentions ∧
        s.pass.1.settings.constraints.policy.isReady o.view c = false := by
    decide
  obtain ⟨o, ho, q, hq, hobject, c, hc, hthrows, hvar, hready⟩ := unanswered
  refine ⟨o, ho, c, hc, ?_⟩
  refine (recorded_of_unanswered s o ho q hq hobject c hc hthrows hvar).resolve_left ?_
  rintro ⟨ready, -⟩
  rw [hready] at ready
  cases ready

/-! ## Silence -/

/-- Every constraint that has the variable of an unanswered query among `vars` has a record. -/
def Outspoken (s : Session) (vars : Constraint → List String) : Prop :=
  ∀ o ∈ s.pass.1.objects, ∀ q ∈ s.pass.1.registry.pending, q.object = o.id →
    ∀ c ∈ o.rule.constraints, c.isThrows = false → q.var ∈ vars c →
      ∃ v ∈ s.finish.records, v.IsAbout o c

instance (s : Session) (vars : Constraint → List String) : Decidable (s.Outspoken vars) :=
  inferInstanceAs (Decidable (∀ o ∈ s.pass.1.objects, ∀ q ∈ s.pass.1.registry.pending,
    q.object = o.id → ∀ c ∈ o.rule.constraints, c.isThrows = false → q.var ∈ vars c →
      ∃ v ∈ s.finish.records, v.IsAbout o c))

/-- A cipher is told one text, and there is one constraint. -/
def textRule (name : String) (c : Constraint) : Rule :=
  { Rule.empty "Cipher" with
    declarations := [⟨name, "String"⟩]
    automaton :=
      { states := [⟨"new", false⟩, ⟨"ready", true⟩]
        initial := ["new"]
        transitions := [⟨"new", "ready", [.ofParams "Cipher.init" [⟨name, "String"⟩]]⟩] }
    constraints := [c] }

def textSession (name : String) (c : Constraint) : Session :=
  { guardedSession with rules := Rulebook.empty.insert false (textRule name c) }

def textOps : List Op :=
  [.track "c" "c@1" "Cipher", .observe "c" ⟨"1", ⟨"Cipher", "init", ["String"]⟩, "Cipher"⟩]

/-- A constraint passes silently if its variable is bound at one site and unanswered at
another, if its variable only identifies, and if only its guard has the variable. -/
theorem silent_of_unanswered :
    let identified := textSession "speccedKey" (.member (.whole "speccedKey" "String") ["AES"])
    let guarded := textSession "alg"
      (.guarded ⟨"noCallTo", [.method (.ofParams "Cipher.reset" [])], false⟩
        (.member (.whole "alg" "String") ["AES"]))
    (start resetSession.settings resetSession.rules resetSession.subtyping = .ok resetSession ∧
      resetSession.rules.rejected = [] ∧
      ¬(resetSession.run (initOps ++ [resetOp])).Outspoken Constraint.mentions ∧
      (resetSession.run (initOps ++ [resetOp])).finish.records = []) ∧
    (start identified.settings identified.rules identified.subtyping = .ok identified ∧
      identified.rules.rejected = [] ∧
      ¬(identified.run textOps).Outspoken Constraint.mentions ∧
      (identified.run textOps).finish.records = []) ∧
    start guarded.settings guarded.rules guarded.subtyping = .ok guarded ∧
      guarded.rules.rejected = [] ∧
      ¬(guarded.run textOps).Outspoken Constraint.reads ∧
      (guarded.run textOps).finish.records = [] := by
  intro identified guarded
  refine ⟨⟨rfl, by decide, ?_, ?_⟩, ⟨rfl, by decide, ?_, ?_⟩, rfl, by decide, ?_, ?_⟩
  all_goals decide +kernel

end Session

end Misuse
