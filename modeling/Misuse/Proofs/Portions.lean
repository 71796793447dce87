import Mathlib.Data.List.Basic
import Misuse.Proofs.Disjunctions
import Misuse.Proofs.Placements

/-!
# Judging in portions

The constraints of an object may be judged in portions, as those are that have waited. Each index
contributes what it contributes alone (`judgeOnly_flatMap`): at most one record, whose kind is told
by the part the constraint is in and by its truth (`kinds_judgeOnly_singleton`). So the records of
two portions are those of the whole, and a failure hides no other constraint. The two loops that
record direct constraints and requirements count just the failures that they record
(`judged_in_portions`).
-/

namespace Misuse

/-! ## Portions -/

namespace Policy

variable (policy : Policy) (r : Rule) (view : View) {indices indices' : List Nat}

theorem placements_append (xs ys : List Nat) :
    policy.placements r view (xs ++ ys) =
      policy.placements r view xs ++ policy.placements r view ys := List.filterMap_append

theorem placements_perm (h : indices.Perm indices') :
    (policy.placements r view indices).Perm (policy.placements r view indices') := h.filterMap _

end Policy

namespace Rule

variable (r : Rule) (policy : Policy) (ctx : Context) {indices indices' : List Nat}

/-- The order of the indices is the order of the records only. -/
theorem judgeOnly_perm (h : indices.Perm indices') :
    (r.judgeOnly policy ctx indices).violations.Perm
        (r.judgeOnly policy ctx indices').violations ∧
      (r.judgeOnly policy ctx indices).pending.Perm (r.judgeOnly policy ctx indices').pending := by
  have placed := policy.placements_perm r ctx.view h
  exact ⟨((placed.filterMap _).filterMap _).append ((placed.filterMap _).filterMap _),
    placed.filterMap _⟩

theorem judgeOnly_append (xs ys : List Nat) :
    (r.judgeOnly policy ctx (xs ++ ys)).violations.Perm
        ((r.judgeOnly policy ctx xs).violations ++ (r.judgeOnly policy ctx ys).violations) ∧
      (r.judgeOnly policy ctx (xs ++ ys)).pending =
        (r.judgeOnly policy ctx xs).pending ++ (r.judgeOnly policy ctx ys).pending := by
  simp only [judgeOnly, directRecords, requiredRecords, Policy.partition,
    Policy.placements_append, List.filterMap_append, and_true, List.append_assoc]
  -- the requirements of the first portion change places with the direct ones of the second
  apply List.Perm.append_left
  rw [← List.append_assoc, ← List.append_assoc]
  exact List.perm_append_comm.append_right _

/-- **Every index contributes what it does alone.** -/
theorem judgeOnly_flatMap (indices : List Nat) :
    (r.judgeOnly policy ctx indices).violations.Perm
        (indices.flatMap fun i => (r.judgeOnly policy ctx [i]).violations) ∧
      (r.judgeOnly policy ctx indices).pending =
        indices.flatMap fun i => (r.judgeOnly policy ctx [i]).pending := by
  induction indices with
  | nil => exact ⟨.refl _, rfl⟩
  | cons i indices ih =>
    obtain ⟨violations, pending⟩ := r.judgeOnly_append policy ctx [i] indices
    rw [List.singleton_append] at violations pending
    rw [List.flatMap_cons, List.flatMap_cons, pending, ih.2]
    exact ⟨violations.trans (ih.1.append_left _), rfl⟩

/-! ## One constraint -/

/-- The kind of a record that says that a constraint fails. -/
def failureKind (c : Constraint) : Violation.Kind :=
  match Requirement.ofConstraint? c with
  | some _ => .missingPredicate
  | none => .constraint

/-- A constraint is judged, and all its variables are bound or only identify. -/
structure Eligible (view : View) (i : Nat) (c : Constraint) : Prop where
  here : r.constraints[i]? = some c
  judged : c.isThrows = false
  ready : policy.isReady view c = true

variable {r policy ctx} {i : Nat} {c : Constraint}

/-- An eligible constraint leaves one record, or none if it holds. -/
theorem kinds_judgeOnly_singleton (h : r.Eligible policy ctx.view i c) :
    (r.judgeOnly policy ctx [i]).violations.map Violation.kind =
      ((c.judged ctx).recordKind? (failureKind c)).toList := by
  obtain ⟨here, judged, ready⟩ := h
  unfold Constraint.judged failureKind
  cases form : Requirement.ofConstraint? c with
  | none =>
    have placed : policy.placements r ctx.view [i] = [(i, .direct)] := by
      simp [Policy.placements, here, judged, Policy.place_eq_direct_iff, ready, form]
    rw [← kind_directRecord? r]
    cases record : r.directRecord? ctx c <;>
      simp [judgeOnly, Policy.partition, placed, directRecords, requiredRecords, here, record]
  | some q =>
    have placed : policy.placements r ctx.view [i] = [(i, .required q)] := by
      simp [Policy.placements, here, judged, Policy.place_eq_required_iff, ready, form]
    have kind := kind_requiredRecord? r ctx ⟨q, i, policy.anchor? ctx.view q⟩
    rw [← kind]
    cases record : r.requiredRecord? ctx ⟨q, i, policy.anchor? ctx.view q⟩ <;>
      simp [judgeOnly, Policy.partition, placed, directRecords, requiredRecords, record]

/-- An eligible constraint is direct by its form. -/
theorem mem_direct_singleton_iff (h : r.Eligible policy ctx.view i c) :
    i ∈ (policy.partition r ctx.view [i]).direct ↔ Requirement.ofConstraint? c = none := by
  rw [Policy.mem_direct_iff]
  constructor
  · rintro ⟨-, d, here, -, -, form⟩
    cases h.here.symm.trans here
    exact form
  · exact fun form => ⟨List.mem_singleton_self i, c, h.here, h.judged, h.ready, form⟩

/-- So is it required, and what is required is told by its form as well. -/
theorem exists_required_singleton_iff (h : r.Eligible policy ctx.view i c)
    (holds : Requirement → Prop) :
    (∃ x ∈ (policy.partition r ctx.view [i]).required, holds x.requirement) ↔
      ∃ q, Requirement.ofConstraint? c = some q ∧ holds q := by
  constructor
  · rintro ⟨x, hx, hq⟩
    obtain ⟨⟨hi, d, here, -, -, form⟩, -⟩ := Policy.mem_required_iff.mp hx
    rw [List.mem_singleton.mp hi] at here
    cases h.here.symm.trans here
    exact ⟨_, form, hq⟩
  · rintro ⟨q, form, hq⟩
    exact ⟨_, Policy.mem_required_of_ready (List.mem_singleton_self i) h.here h.judged h.ready form,
      hq⟩

theorem requirementTruth_eq_no_iff {q : Requirement} :
    requirementTruth ctx q = .no ↔ ∀ p ∈ q.members, (p.evaluate ctx).truth = .no := by
  rw [requirementTruth_eq, Truth.any_eq_no_iff, List.forall_mem_map]

/-- Nothing is recorded of a constraint that is not eligible. -/
theorem judgeOnly_of_not_eligible (h : ∀ c, ¬ r.Eligible policy ctx.view i c) :
    (r.judgeOnly policy ctx [i]).violations = [] := by
  have direct : (policy.partition r ctx.view [i]).direct = [] := by
    rw [List.eq_nil_iff_forall_not_mem]
    intro j hj
    obtain ⟨hi, c, here, judged, ready, -⟩ := Policy.mem_direct_iff.mp hj
    rw [List.mem_singleton.mp hi] at here
    exact h c ⟨here, judged, ready⟩
  have required : (policy.partition r ctx.view [i]).required = [] := by
    rw [List.eq_nil_iff_forall_not_mem]
    intro x hx
    obtain ⟨⟨hi, c, here, judged, ready, -⟩, -⟩ := Policy.mem_required_iff.mp hx
    rw [List.mem_singleton.mp hi] at here
    exact h c ⟨here, judged, ready⟩
  simp only [judgeOnly, direct, required, directRecords, requiredRecords, List.filterMap_nil,
    List.append_nil]

/-! ## Counts -/

/-- A record of the kind of a failure is there if the truth is no. -/
theorem getD_recordKind? {record : Option Violation} {t : Truth} {failure : Violation.Kind}
    (h : record.map Violation.kind = t.recordKind? failure) {P : Violation.Kind → Bool}
    (fails : P failure = true) (unclear : P .impreciseValue = false) :
    (record.map fun v => P v.kind).getD false = (t == .no) := by
  have kinds : (record.map fun v => P v.kind) = (t.recordKind? failure).map P := by
    rw [← h, Option.map_map]
    rfl
  rw [kinds]
  cases t
  case yes => rfl
  case no => exact fails
  case unclear => exact unclear

variable (r ctx) {P : Violation.Kind → Bool} (out : List Violation)

theorem evaluateDirect_eq (indices : List Nat) (fails : P .constraint = true)
    (unclear : P .impreciseValue = false) :
    r.evaluateDirect ctx indices out =
      ((r.directRecords ctx indices).countP fun v => P v.kind,
        out ++ r.directRecords ctx indices) := by
  rw [evaluateDirect, recordEach_eq, directRecords, List.countP_filterMap]
  congr 2
  funext i
  cases r.constraints[i]? with
  | none => rfl
  | some c => exact (getD_recordKind? (kind_directRecord? r ctx c) fails unclear).symm

theorem resolveRequired_eq (required : List Required) (fails : P .missingPredicate = true)
    (unclear : P .impreciseValue = false) :
    r.resolveRequired ctx required out =
      ((r.requiredRecords ctx required).countP fun v => P v.kind,
        out ++ r.requiredRecords ctx required) := by
  rw [resolveRequired, recordEach_eq, requiredRecords, List.countP_filterMap]
  congr 2
  funext q
  exact (getD_recordKind? (kind_requiredRecord? r ctx q) fails unclear).symm

/-- The judgement is what the two loops record one after the other, and its misuses are those that
they count. -/
theorem judgeOnly_eq_loops (policy : Policy) (indices : List Nat) :
    let p := policy.partition r ctx.view indices
    let direct := r.evaluateDirect ctx p.direct []
    let required := r.resolveRequired ctx p.required direct.2
    (r.judgeOnly policy ctx indices).violations = required.2 ∧
      (r.judgeOnly policy ctx indices).misuses = direct.1 + required.1 := by
  simp only [evaluateDirect_eq r ctx [] _ (P := Violation.Kind.isMisuse) rfl rfl,
    resolveRequired_eq r ctx _ _ (P := Violation.Kind.isMisuse) rfl rfl, List.nil_append]
  refine ⟨rfl, ?_⟩
  rw [← List.countP_append, List.countP_eq_length_filter]
  rfl

/-! ## The whole -/

/-- **Judging is compositional, and a failure hides no other constraint.** Take indices in two
portions. The records of the whole are those of the portions, and so are the indices that wait;
each index contributes what it does alone. An eligible constraint leaves at most one record: a
violation if it is direct and false, a missing predicate if it is a requirement of which every
member is false, an advisory if it is unclear, and none if it holds; any other constraint leaves
none. The loops over the direct constraints and over the requirements return the numbers of the
violations and of the missing predicates that they record, and the misuses of the judgement are
the sum of these numbers. -/
theorem judged_in_portions (r : Rule) (policy : Policy) (ctx : Context) :
    (∀ indices xs ys : List Nat, indices.Perm (xs ++ ys) →
      let whole := r.judgeOnly policy ctx indices
      let first := r.judgeOnly policy ctx xs
      let second := r.judgeOnly policy ctx ys
      whole.violations.Perm (first.violations ++ second.violations) ∧
        whole.pending.Perm (first.pending ++ second.pending)) ∧
    (∀ indices : List Nat, (r.judgeOnly policy ctx indices).violations.Perm
      (indices.flatMap fun i => (r.judgeOnly policy ctx [i]).violations)) ∧
    (∀ i c, r.Eligible policy ctx.view i c →
      let p := policy.partition r ctx.view [i]
      let own := (r.judgeOnly policy ctx [i]).violations.map Violation.kind
      own.length ≤ 1 ∧
        (own = [.constraint] ↔ i ∈ p.direct ∧ (c.evaluate ctx).truth = .no) ∧
        (own = [.missingPredicate] ↔
          ∃ q ∈ p.required, ∀ m ∈ q.requirement.members, (m.evaluate ctx).truth = .no) ∧
        (own = [.impreciseValue] ↔ c.judged ctx = .unclear) ∧
        (own = [] ↔ c.judged ctx = .yes)) ∧
    (∀ i, (∀ c, ¬ r.Eligible policy ctx.view i c) →
      (r.judgeOnly policy ctx [i]).violations = []) ∧
    (∀ direct out, ∃ pushed, r.evaluateDirect ctx direct out =
      (pushed.countP fun v => v.kind == .constraint, out ++ pushed)) ∧
    (∀ required out, ∃ pushed, r.resolveRequired ctx required out =
      (pushed.countP fun v => v.kind == .missingPredicate, out ++ pushed)) ∧
    ∀ indices : List Nat,
      let p := policy.partition r ctx.view indices
      let direct := r.evaluateDirect ctx p.direct []
      let required := r.resolveRequired ctx p.required direct.2
      (r.judgeOnly policy ctx indices).violations = required.2 ∧
        (r.judgeOnly policy ctx indices).misuses = direct.1 + required.1 := by
  refine ⟨fun indices xs ys split => ?_, fun indices => (r.judgeOnly_flatMap policy ctx indices).1,
    fun i c eligible => ?_, fun i => judgeOnly_of_not_eligible,
    fun direct out => ⟨_, r.evaluateDirect_eq ctx (P := (· == .constraint)) out direct rfl rfl⟩,
    fun required out =>
      ⟨_, r.resolveRequired_eq ctx (P := (· == .missingPredicate)) out required rfl rfl⟩,
    r.judgeOnly_eq_loops ctx policy⟩
  · obtain ⟨violations, pending⟩ := r.judgeOnly_perm policy ctx split
    obtain ⟨violations', pending'⟩ := r.judgeOnly_append policy ctx xs ys
    exact ⟨violations.trans violations', pending' ▸ pending⟩
  · intro p own
    have kinds : own = ((c.judged ctx).recordKind? (failureKind c)).toList :=
      kinds_judgeOnly_singleton eligible
    rw [mem_direct_singleton_iff eligible, exists_required_singleton_iff eligible
      fun q => ∀ m ∈ q.members, (m.evaluate ctx).truth = .no, kinds]
    simp only [← requirementTruth_eq_no_iff]
    unfold Constraint.judged failureKind
    cases Requirement.ofConstraint? c with
    | none => cases ht : (c.evaluate ctx).truth <;> simp [Truth.recordKind?]
    | some q => cases ht : requirementTruth ctx q <;> simp [Truth.recordKind?, ht]

/-- The algorithm is not allowed, the key is not generated, and of the vector nothing is known: in
two portions or at once, these are two misuses and an advisory. -/
theorem judged_in_portions_cipher :
    let alg : Binding := ⟨"2", "alg", .argument 0, [⟨.constant (.text "DES"), none⟩]⟩
    let iv : Binding := ⟨"3", "iv", .argument 0, [.unresolved]⟩
    let view : View := { Policy.keyView with bindings := Policy.keyView.bindings ++ [alg, iv] }
    let ctx : Context := ⟨view, FactStore.empty.lookup 4, exactTypes, 4⟩
    let judged := Policy.mixedCipher.judgeOnly .default ctx
    let kinds := fun indices => (judged indices).violations.map Violation.kind
    [3, 9, 2, 1, 0].Perm ([0, 3] ++ [2, 1, 9]) ∧
      Policy.mixedCipher.Eligible .default view 0 (.member (.whole "alg" "String") ["AES"]) ∧
      kinds [0, 3] = [.constraint, .impreciseValue] ∧ kinds [2, 1, 9] = [.missingPredicate] ∧
      (kinds [3, 9, 2, 1, 0]).Perm (kinds [0, 3] ++ kinds [2, 1, 9]) ∧
      kinds [0] = [.constraint] ∧ kinds [1] = [] ∧ (judged [3, 9, 2, 1, 0]).misuses = 2 := by
  intro alg iv view ctx judged kinds
  have split : [3, 9, 2, 1, 0].Perm ([0, 3] ++ [2, 1, 9]) := by decide
  have eligible : Policy.mixedCipher.Eligible .default view 0
      (.member (.whole "alg" "String") ["AES"]) := ⟨rfl, rfl, by decide⟩
  have exempt : ∀ c, ¬ Policy.mixedCipher.Eligible .default view 1 c := by
    rintro c ⟨here, judged, -⟩
    cases here
    cases judged
  obtain ⟨portions, -, one, none, -, -, loops⟩ :=
    judged_in_portions Policy.mixedCipher .default ctx
  refine ⟨split, eligible, by decide +kernel, by decide +kernel, ?_, ?_, ?_, ?_⟩
  · simpa using (portions _ _ _ split).1.map Violation.kind
  · exact (one 0 _ eligible).2.1.mpr ⟨by decide +kernel, by decide +kernel⟩
  · exact congrArg (List.map Violation.kind) (none 1 exempt)
  · rw [(loops [3, 9, 2, 1, 0]).2]
    decide +kernel

end Rule

end Misuse
