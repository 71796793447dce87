import Misuse.Proofs.Enrichment

/-!
# How many combinations are looked at

Where there are more combinations than the cap allows, the answer is unclear. So a larger cap
keeps the definite answers of operands, comparisons and lookups (`Context.Wider`), and those of
a constraint (`truth_evaluate_wider`) but for one place: a guard that becomes clear and false
frees its predicate, which may have been false while the guard was unclear (`Predicate.flips`).
Where no predicate is freed so, a smaller cap makes no constraint fail
(`failing_subset_of_caps`).
-/

namespace Misuse

/-! ## Wider contexts -/

/-- The same view is judged, with more combinations looked at. -/
structure Context.Wider (ctx ctx' : Context) : Prop where
  view : ctx'.view = ctx.view
  subtyping : ctx'.subtyping = ctx.subtyping
  limit : ctx.limit ≤ ctx'.limit
  lookup : ∀ p, (ctx.lookup p ctx.view).truth.KeptBy (ctx'.lookup p ctx.view).truth

/-- A larger cap determines more predicates. -/
theorem Atom.Determined.mono {view : View} {cap cap' : Nat} {a : Atom}
    (h : a.Determined view cap) (hcap : cap ≤ cap') : a.Determined view cap' :=
  ⟨h.1, Nat.le_trans h.2 (by omega)⟩

theorem FactStore.lookup_kept (s : FactStore) {cap cap' : Nat} (h : cap ≤ cap') (p : Predicate)
    (view : View) : (s.lookup cap p view).truth.KeptBy (s.lookup cap' p view).truth := by
  rw [truth_lookup, truth_lookup]
  by_cases determined : p.atom.Determined view cap
  · rw [if_pos determined, if_pos (determined.mono h)]
    exact .refl _
  · rw [if_neg determined]
    exact .inl rfl

theorem FactStore.wider_context (s : FactStore) (view : View) (subtyping : Subtyping)
    {cap cap' : Nat} (h : cap ≤ cap') :
    (s.context view subtyping cap cap).Wider (s.context view subtyping cap' cap') where
  view := rfl
  subtyping := rfl
  limit := by
    simp only [context, Context.limit]
    omega
  lookup p := s.lookup_kept h p view

/-- As many combinations are looked at, or there were too many of them. -/
theorem Arithmetic.candidates?_learnt (view : View) {limit limit' : Nat} (h : limit ≤ limit')
    (e : Arithmetic) : Learnt (e.candidates? view limit) (e.candidates? view limit') := by
  unfold candidates?
  split
  · exact .refl _
  · simp only
    split
    · exact .inl rfl
    next within =>
      rw [if_neg fun many => within (Nat.lt_of_le_of_lt h many)]
      exact .refl _

namespace Context

variable {ctx ctx' : Context} (h : ctx.Wider ctx')
include h

theorem Wider.arithmetic (e : Arithmetic) :
    (ctx.arithmetic e).truth.KeptBy (ctx'.arithmetic e).truth := by
  unfold Context.arithmetic
  rw [h.view]
  rcases e.candidates?_learnt ctx.view h.limit with unknown | same
  · rw [unknown]
    exact .inl rfl
  · rw [same]
    exact .refl _

theorem Wider.comparison (l : Arithmetic) (op : Comparison) (r : Arithmetic) :
    (ctx.comparison l op r).truth.KeptBy (ctx'.comparison l op r).truth := by
  unfold Context.comparison
  rw [h.view]
  rcases l.candidates?_learnt ctx.view h.limit with unknown | left
  · rw [unknown]
    exact .inl rfl
  rcases r.candidates?_learnt ctx.view h.limit with unknown | right
  · rw [unknown]
    cases l.candidates? ctx.view ctx.limit <;> exact .inl rfl
  rw [left, right]
  cases l.candidates? ctx.view ctx.limit with
  | none => exact .refl _
  | some ls =>
    cases r.candidates? ctx.view ctx.limit with
    | none => exact .refl _
    | some rs =>
      simp only
      split
      · exact .inl rfl
      next within =>
        rw [if_neg fun many => within (Nat.lt_of_le_of_lt h.limit many)]
        exact .refl _

theorem Wider.builtin (a : Atom) (b : Builtin) : ctx'.builtin a b = ctx.builtin a b := by
  cases b <;>
    simp only [Context.builtin, matchingCalls, typed, valued, perValue, h.view, h.subtyping]

theorem Wider.applies (p : Predicate) : (ctx.applies p).truth.KeptBy (ctx'.applies p).truth := by
  unfold Context.applies
  cases p.atom.builtin? with
  | some b =>
    simp only [h.builtin]
    exact .refl _
  | none =>
    simp only [h.view]
    exact h.lookup p

end Context

/-! ## Constraints -/

/-- The guard becomes clear and false, and the predicate was false while it was unclear. -/
def Predicate.flips (ctx ctx' : Context) (p : Predicate) : Bool :=
  p.guard.any fun g =>
    (g.evaluate ctx).truth == .unclear && (g.evaluate ctx').truth == .no &&
      (ctx.applies p).truth == .no

/-- Such a predicate is freed from what it missed. -/
theorem Predicate.truth_evaluate_of_flips {ctx ctx' : Context} {p : Predicate}
    (h : p.flips ctx ctx' = true) :
    (p.evaluate ctx).truth = .no ∧ (p.evaluate ctx').truth = .yes := by
  obtain ⟨a, guard⟩ := p
  cases guard with
  | none => cases h
  | some g =>
    simp only [flips, Option.any_some, Bool.and_eq_true, beq_iff_eq] at h
    obtain ⟨⟨unclear, no⟩, missed⟩ := h
    simp only [evaluate, toConstraint, Constraint.evaluate, unclear, no, reduceCtorEq,
      ↓reduceIte]
    exact ⟨missed, rfl⟩

section Wider

variable {ctx ctx' : Context} (h : ctx.Wider ctx')
include h

/-- **A definite truth stays when more combinations are looked at**, unless a guard frees its
predicate. -/
theorem Constraint.truth_evaluate_wider {c : Constraint}
    (hc : ∀ p ∈ c.predicates, p.flips ctx ctx' = false) :
    (c.evaluate ctx).truth.KeptBy (c.evaluate ctx').truth := by
  induction c with
  | member v allowed =>
    refine .inr (congrArg Verdict.truth ?_)
    simp only [evaluate, Context.member, Context.perValue, h.view]
  | arithmetic e => exact h.arithmetic e
  | compare l op r => exact h.comparison l op r
  | connect l op r ihl ihr =>
    rw [truth_evaluate_connect, truth_evaluate_connect]
    have left := ihl fun p hp => hc p (List.mem_append_right _ hp)
    have right := ihr fun p hp => hc p (List.mem_append_left _ hp)
    exact left.combine right op
  | atom a => exact h.applies ⟨a, none⟩
  | guarded a g ih =>
    have guard := ih fun p hp => hc p (List.mem_cons_of_mem _ hp)
    have applies := h.applies ⟨a, some g⟩
    simp only [evaluate]
    by_cases no : (g.evaluate ctx).truth = .no
    · have no' : (g.evaluate ctx').truth = .no := by
        rcases guard with unclear | same
        · rw [no] at unclear
          cases unclear
        · rw [same, no]
      rw [if_pos no, if_pos no']
      exact .refl _
    · rw [if_neg no]
      by_cases no' : (g.evaluate ctx').truth = .no
      · -- the guard was unclear, so the predicate was not false, for it is not freed
        have unclear : (g.evaluate ctx).truth = .unclear :=
          guard.resolve_right fun same => no (same ▸ no')
        have kept := hc ⟨a, some g⟩ List.mem_cons_self
        simp only [Predicate.flips, Option.any_some, unclear, no', beq_self_eq_true,
          Bool.and_self, Bool.true_and, beq_eq_false_iff_ne] at kept
        rw [if_pos no']
        cases ht : (ctx.applies ⟨a, some g⟩).truth with
        | yes => exact .inr rfl
        | no => exact absurd ht kept
        | unclear => exact .inl rfl
      · rw [if_neg no']
        exact applies
  | throws m exception => exact .refl _

theorem Constraint.judged_wider {c : Constraint}
    (hc : ∀ p ∈ c.predicates, p.flips ctx ctx' = false) :
    (c.judged ctx).KeptBy (c.judged ctx') := by
  refine judged_rel (.refl _) (fun ht hu => ht.combine hu .or) (truth_evaluate_wider h hc) ?_
  intro q hq p hp
  exact truth_evaluate_wider h fun p' hp' =>
    hc p' (Requirement.predicates_of_mem_members hq p hp p' hp')

end Wider

/-! ## Rules -/

/-- **The cap costs precision only, guards aside.** Take two caps, each for the combinations of
values and for the rows that are looked up. If no predicate within a constraint is freed by its
guard, what is definite under the smaller cap is so under the larger one, with the same truth;
a predicate that is freed is false under the smaller cap and true under the larger. So for a
rule without such predicates, the constraints that fail under the smaller cap fail under the
larger, and the same constraints wait for a variable. -/
theorem Rule.failing_subset_of_caps (store : FactStore) (view : View) (subtyping : Subtyping)
    {cap cap' : Nat} (h : cap ≤ cap') :
    let low := store.context view subtyping cap cap
    let high := store.context view subtyping cap' cap'
    (∀ c : Constraint, (∀ p ∈ c.predicates, p.flips low high = false) →
      (c.evaluate low).truth.KeptBy (c.evaluate high).truth ∧
        (c.judged low).KeptBy (c.judged high)) ∧
    (∀ p : Predicate, p.flips low high = true →
      (p.evaluate low).truth = .no ∧ (p.evaluate high).truth = .yes) ∧
    ∀ r : Rule, (∀ c ∈ r.constraints, ∀ p ∈ c.predicates, p.flips low high = false) →
      ∀ policy : Policy, r.failing policy low ⊆ r.failing policy high ∧
        (r.judge policy low).pending = (r.judge policy high).pending := by
  intro low high
  have wider : low.Wider high := store.wider_context view subtyping h
  refine ⟨fun c hc => ⟨?_, ?_⟩, fun p hp => Predicate.truth_evaluate_of_flips hp, ?_⟩
  · exact Constraint.truth_evaluate_wider wider hc
  · exact Constraint.judged_wider wider hc
  · intro r hr policy
    refine ⟨fun i hi => ?_, rfl⟩
    obtain ⟨c, hc, hthrows, hready, hno⟩ := mem_failing_iff.mp hi
    refine mem_failing_iff.mpr ⟨c, hc, hthrows, hready, ?_⟩
    rcases Constraint.judged_wider wider (hr c (List.mem_of_getElem? hc)) with unclear | same
    · rw [hno] at unclear
      cases unclear
    · rw [same, hno]

/-! ## Sizes of keys -/

/-- A cipher is told a size of its key, one of two, and the size of a block. -/
def sizedView : View :=
  ⟨"c", "c@1",
    [⟨"1", "size", .argument 0, [⟨.constant (.int 128), none⟩, ⟨.constant (.int 192), none⟩]⟩,
     ⟨"1", "block", .argument 1, [⟨.constant (.int 64), none⟩]⟩],
    []⟩

/-- The key is as long as a block. -/
def sameSize : Constraint :=
  .compare (.lift (.var (.whole "size" "int"))) .eq (.lift (.var (.whole "block" "int")))

/-- The cipher was prepared. -/
def preparedAtom : Atom := ⟨"prepared", [.self], false⟩

/-- One combination is too few to tell that no size is right. -/
theorem Rule.failing_subset_of_caps_sizes :
    let low := FactStore.empty.context sizedView exactTypes 1 1
    let high := FactStore.empty.context sizedView exactTypes 256 256
    let r := { Rule.empty "Cipher" with
      constraints := [.connect sameSize .or (.atom preparedAtom), .atom preparedAtom] }
    1 ≤ 256 ∧ (∀ c ∈ r.constraints, ∀ p ∈ c.predicates, p.flips low high = false) ∧
      r.failing .default low = [1] ∧ r.failing .default high = [0, 1] ∧
      r.failing .default low ⊆ r.failing .default high := by
  intro low high r
  have caps : 1 ≤ 256 := by decide
  have unguarded : ∀ c ∈ r.constraints, ∀ p ∈ c.predicates, p.flips low high = false := by decide
  refine ⟨caps, unguarded, by decide +kernel, by decide +kernel, ?_⟩
  exact ((failing_subset_of_caps .empty sizedView exactTypes caps).2.2 r unguarded .default).1

/-- The cipher has to be prepared if the key is as long as a block. Under the smaller cap that
cannot be told and the cipher fails, under the larger one it is free. -/
theorem Rule.failing_of_guarded_caps :
    let low := FactStore.empty.context sizedView exactTypes 1 1
    let high := FactStore.empty.context sizedView exactTypes 256 256
    let c : Constraint := .guarded preparedAtom sameSize
    let r := { Rule.empty "Cipher" with constraints := [c] }
    (c.evaluate low).truth = .no ∧ (c.evaluate high).truth = .yes ∧
      r.failing .default low = [0] ∧ r.failing .default high = [] := by
  intro low high c r
  exact ⟨by decide +kernel, by decide +kernel, by decide +kernel, by decide +kernel⟩

end Misuse
