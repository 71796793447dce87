import Misuse.Proofs.Endings
import Misuse.Proofs.Failures

/-!
# Which constraints fail

The records of one object, each with the index of its constraint (`Rule.records`), tell which
constraints fail: those that are ready, no declared exceptions, and false (`mem_failing_iff`).
A requirement is the disjunction of its members (`requirementTruth_eq`), so what relates two
truths of a constraint, and of each member, relates what is made of it (`judged_rel`).
-/

namespace Misuse

/-! ## Disjunctions -/

/-- One of them holds. -/
def Truth.any : List Truth → Truth
  | [] => .no
  | t :: ts => t.or (any ts)

theorem Truth.any_eq (ts : List Truth) :
    any ts = if ts.contains .yes then .yes else if ts.contains .unclear then .unclear else .no := by
  induction ts with
  | nil => rfl
  | cons t ts ih =>
    rw [any, ih]
    cases t <;> cases hyes : ts.contains .yes <;> cases hun : ts.contains .unclear <;>
      simp_all [Truth.or]

theorem Rule.requirementTruth_eq (ctx : Context) (q : Requirement) :
    requirementTruth ctx q = Truth.any (q.members.map fun p => (p.evaluate ctx).truth) := by
  rw [Truth.any_eq]
  rfl

/-- What relates the truths of all members relates those of their disjunctions. -/
theorem Truth.any_rel {R : Truth → Truth → Prop} (hno : R .no .no)
    (hor : ∀ {t u t' u'}, R t u → R t' u' → R (t.or t') (u.or u')) {α : Type} {f g : α → Truth}
    {items : List α} (h : ∀ x ∈ items, R (f x) (g x)) :
    R (any (items.map f)) (any (items.map g)) := by
  induction items with
  | nil => exact hno
  | cons x items ih =>
    obtain ⟨hx, hitems⟩ := List.forall_mem_cons.mp h
    exact hor hx (ih hitems)

/-- What relates two truths of a constraint and of the members of its requirement relates what
is made of it. -/
theorem Constraint.judged_rel {R : Truth → Truth → Prop} (hno : R .no .no)
    (hor : ∀ {t u t' u'}, R t u → R t' u' → R (t.or t') (u.or u')) {c : Constraint}
    {ctx ctx' : Context} (hc : R (c.evaluate ctx).truth (c.evaluate ctx').truth)
    (hmembers : ∀ q, Requirement.ofConstraint? c = some q → ∀ p ∈ q.members,
      R (p.evaluate ctx).truth (p.evaluate ctx').truth) : R (c.judged ctx) (c.judged ctx') := by
  unfold judged
  cases hq : Requirement.ofConstraint? c with
  | none => exact hc
  | some q =>
    simp only [Rule.requirementTruth_eq]
    exact Truth.any_rel hno hor (hmembers q hq)

/-! ## Records and indices -/

namespace Rule

variable (r : Rule) (policy : Policy) (ctx : Context)

/-- What is recorded of an object, with the indices of the constraints. -/
def records : List (Nat × Violation) :=
  let p := policy.partition r ctx.view r.constraintIndices
  (p.direct.filterMap fun i => ((r.constraints[i]?).bind (r.directRecord? ctx)).map (i, ·)) ++
    p.required.filterMap fun q => (r.requiredRecord? ctx q).map (q.index, ·)

/-- The records are those of the judgement. -/
theorem map_snd_records :
    (r.records policy ctx).map Prod.snd = (r.judge policy ctx).violations := by
  simp [records, judge, judgeOnly, directRecords, requiredRecords, List.map_filterMap,
    Function.comp_def]

/-- The constraints that are violated or miss a predicate. -/
def failing : List Nat :=
  ((r.records policy ctx).filter fun e => e.2.isFailure).map Prod.fst

variable {r policy ctx} {c : Constraint}

theorem exists_failure_direct_iff :
    (∃ v, r.directRecord? ctx c = some v ∧ v.isFailure = true) ↔
      (c.evaluate ctx).truth = .no := by
  unfold directRecord?
  cases ht : (c.evaluate ctx).truth <;>
    simp [ht, Violation.isFailure, Violation.constraint, Violation.impreciseValue]

theorem exists_failure_required_iff {q : Required} :
    (∃ v, r.requiredRecord? ctx q = some v ∧ v.isFailure = true) ↔
      requirementTruth ctx q.requirement = .no := by
  unfold requiredRecord?
  cases ht : requirementTruth ctx q.requirement <;>
    simp [Violation.isFailure, Violation.missingPredicate, Violation.impreciseValue]

/-- **A constraint fails if it is ready and false.** -/
theorem mem_failing_iff {i : Nat} :
    i ∈ r.failing policy ctx ↔
      ∃ c, r.constraints[i]? = some c ∧ c.isThrows = false ∧
        policy.isReady ctx.view c = true ∧ c.judged ctx = .no := by
  have recorded : i ∈ r.failing policy ctx ↔ ∃ v, (i, v) ∈ r.records policy ctx ∧
      v.isFailure = true := by
    simp [failing]
  rw [recorded]
  constructor
  · rintro ⟨v, hv, hfail⟩
    rcases List.mem_append.mp hv with hv | hv
    · obtain ⟨j, hj, hrecord⟩ := List.mem_filterMap.mp hv
      obtain ⟨w, hw, hpair⟩ := Option.map_eq_some_iff.mp hrecord
      obtain ⟨rfl, rfl⟩ := Prod.mk.inj hpair
      obtain ⟨-, c, hc, hthrows, hready, hq⟩ := Policy.mem_direct_iff.mp hj
      rw [hc, Option.bind_some] at hw
      refine ⟨c, hc, hthrows, hready, ?_⟩
      simp only [Constraint.judged, hq]
      exact exists_failure_direct_iff.mp ⟨w, hw, hfail⟩
    · obtain ⟨x, hx, hrecord⟩ := List.mem_filterMap.mp hv
      obtain ⟨w, hw, hpair⟩ := Option.map_eq_some_iff.mp hrecord
      obtain ⟨rfl, rfl⟩ := Prod.mk.inj hpair
      obtain ⟨⟨-, c, hc, hthrows, hready, hq⟩, -⟩ := Policy.mem_required_iff.mp hx
      refine ⟨c, hc, hthrows, hready, ?_⟩
      simp only [Constraint.judged, hq]
      exact exists_failure_required_iff.mp ⟨w, hw, hfail⟩
  · rintro ⟨c, hc, hthrows, hready, hno⟩
    unfold Constraint.judged at hno
    cases hq : Requirement.ofConstraint? c with
    | none =>
      simp only [hq] at hno
      have direct : i ∈ (policy.partition r ctx.view r.constraintIndices).direct :=
        Policy.mem_direct_iff.mpr ⟨mem_constraintIndices hc, c, hc, hthrows, hready, hq⟩
      obtain ⟨v, hv, hfail⟩ := exists_failure_direct_iff (r := r).mpr hno
      refine ⟨v, List.mem_append_left _ (List.mem_filterMap.mpr ⟨i, direct, ?_⟩), hfail⟩
      simp [hc, hv]
    | some q =>
      simp only [hq] at hno
      let x : Required := ⟨q, i, policy.anchor? ctx.view q⟩
      have required : x ∈ (policy.partition r ctx.view r.constraintIndices).required :=
        Policy.mem_required_of_ready (mem_constraintIndices hc) hc hthrows hready hq
      obtain ⟨v, hv, hfail⟩ := exists_failure_required_iff (r := r) (q := x).mpr hno
      refine ⟨v, List.mem_append_right _ (List.mem_filterMap.mpr ⟨x, required, ?_⟩), hfail⟩
      rw [hv]
      rfl

end Rule

end Misuse
