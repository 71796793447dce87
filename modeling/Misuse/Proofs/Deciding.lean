import Misuse.Proofs.Completion

/-!
# The sites that decide

A tree of connectives lists the sites of every leaf that is looked at (`mem_sites_iff`). If it does
not hold, one of these leaves has its truth, and only the sites of the others can be strays: a
verdict lists none but the sites of leaves that share its truth exactly if there are no strays
(`decided_iff`). A conjunction may well list those of an operand that decided nothing
(`undecided_of_unclear_operand`).
-/

namespace Misuse

namespace Constraint

/-! ## Leaves -/

/-- What the connectives join. A declared exception is no leaf: it constrains nothing. -/
def leaves : Constraint → List Constraint
  | .connect l _ r => l.leaves ++ r.leaves
  | .throws _ _ => []
  | c => [c]

/-- The leaves that are looked at: those of a right operand only if the left one leaves the result
open. -/
def consulted (ctx : Context) : Constraint → List Constraint
  | .connect l op r =>
    l.consulted ctx ++ if op.needsRight (l.evaluate ctx).truth then r.consulted ctx else []
  | .throws _ _ => []
  | c => [c]

/-- A leaf of this truth lists the site. -/
def Lists (ctx : Context) (c : Constraint) (t : Truth) (s : String) : Prop :=
  ∃ l ∈ c.leaves, (l.evaluate ctx).truth = t ∧ s ∈ (l.evaluate ctx).sites

instance (ctx : Context) (c : Constraint) (t : Truth) (s : String) : Decidable (c.Lists ctx t s) :=
  inferInstanceAs (Decidable (∃ l ∈ c.leaves, _))

/-- Every site of the verdict is listed by a leaf of the same truth. -/
def Decided (ctx : Context) (c : Constraint) : Prop :=
  ∀ s ∈ (c.evaluate ctx).sites, c.Lists ctx (c.evaluate ctx).truth s

instance (ctx : Context) (c : Constraint) : Decidable (c.Decided ctx) :=
  inferInstanceAs (Decidable (∀ s ∈ (c.evaluate ctx).sites, _))

/-- All connectives are this one. -/
def Only (op : Connective) : Constraint → Prop
  | .connect l op' r => op' = op ∧ l.Only op ∧ r.Only op
  | _ => True

def isPredicate : Constraint → Bool
  | .atom _ | .guarded _ _ => true
  | _ => false

/-- The predicates that hold list no site. -/
def Quiet (ctx : Context) (c : Constraint) : Prop :=
  ∀ l ∈ c.leaves, l.isPredicate = true → (l.evaluate ctx).truth = .yes →
    (l.evaluate ctx).sites = []

end Constraint

/-! ## Verdicts -/

@[simp] theorem Verdict.mem_withSites (t : Truth) (sites : List String) (s : String) :
    s ∈ (withSites t sites).sites ↔ s ∈ sites := mem_distinct s sites

/-- Nothing is listed of values that hold. -/
theorem Verdict.sites_of_judged_holds {items : List (Truth × List String)}
    (h : (ofJudged items).truth = .yes) : (ofJudged items).sites = [] := by
  unfold ofJudged ofSites at h ⊢
  split
  next failing =>
    rw [if_pos failing] at h
    cases h
  next passing =>
    rw [if_neg passing] at h
    split
    next unclear =>
      rw [if_pos unclear] at h
      cases h
    · rfl

theorem Truth.eq_yes_of_ne {t : Truth} (clear : t ≠ .unclear) (keeps : t ≠ .no) : t = .yes := by
  cases t with
  | yes => rfl
  | no => exact absurd rfl keeps
  | unclear => exact absurd rfl clear

/-- An operand that is looked at decides what does not hold. -/
theorem Connective.exists_deciding {op : Connective} {t u : Truth} (h : op.combine t u ≠ .yes) :
    t = op.combine t u ∨ op.needsRight t = true ∧ u = op.combine t u := by
  revert h
  cases op <;> cases t <;> cases u <;> decide

theorem Connective.or_fails {t u : Truth} (h : Connective.or.combine t u = .no) :
    t = .no ∧ u = .no := by
  revert h
  cases t <;> cases u <;> decide

theorem Connective.and_keeps {t u : Truth} (h : Connective.and.combine t u ≠ .no) :
    t ≠ .no ∧ u ≠ .no := by
  revert h
  cases t <;> cases u <;> decide

namespace Constraint

variable {ctx : Context} {c : Constraint}

/-! ## Leaves that hold -/

theorem sites_of_expression_holds {e : Arithmetic} (h : (ctx.arithmetic e).truth = .yes) :
    (ctx.arithmetic e).sites = [] := by
  unfold Context.arithmetic at h ⊢
  split
  · rfl
  next cs hcs =>
    rw [hcs] at h
    exact Verdict.sites_of_judged_holds h

theorem sites_of_comparison_holds {l r : Arithmetic} {op : Comparison}
    (h : (ctx.comparison l op r).truth = .yes) : (ctx.comparison l op r).sites = [] := by
  unfold Context.comparison at h ⊢
  split
  next ls rs hls hrs =>
    simp only [hls, hrs] at h
    split
    · rfl
    next few =>
      rw [if_neg few] at h
      exact Verdict.sites_of_judged_holds h
  · rfl

/-- Only a predicate lists sites where it holds. -/
theorem sites_of_leaf_holds : ∀ l ∈ c.leaves, l.isPredicate = false →
    (l.evaluate ctx).truth = .yes → (l.evaluate ctx).sites = [] := by
  induction c with
  | connect l op r ihl ihr =>
    intro d hd
    exact (List.mem_append.mp hd).elim (ihl d) (ihr d)
  | throws m exception => simp [leaves]
  | member v allowed =>
    intro d hd _ h
    obtain rfl := List.mem_singleton.mp hd
    exact Verdict.sites_of_judged_holds h
  | arithmetic e =>
    intro d hd _ h
    obtain rfl := List.mem_singleton.mp hd
    exact sites_of_expression_holds h
  | compare left op right =>
    intro d hd _ h
    obtain rfl := List.mem_singleton.mp hd
    exact sites_of_comparison_holds h
  | atom a | guarded a g _ =>
    intro d hd value
    obtain rfl := List.mem_singleton.mp hd
    cases value

/-! ## Leaves that are looked at -/

theorem consulted_subset_leaves (ctx : Context) (c : Constraint) :
    c.consulted ctx ⊆ c.leaves := by
  induction c with
  | connect l op r ihl ihr =>
    intro d hd
    rcases List.mem_append.mp hd with left | right
    · exact List.mem_append_left _ (ihl left)
    · split at right
      · exact List.mem_append_right _ (ihr right)
      · cases right
  | _ => exact List.Subset.refl _

/-- **A verdict lists the sites of the leaves that are looked at.** -/
theorem mem_sites_iff (ctx : Context) (c : Constraint) (s : String) :
    s ∈ (c.evaluate ctx).sites ↔ ∃ l ∈ c.consulted ctx, s ∈ (l.evaluate ctx).sites := by
  induction c with
  | connect l op r ihl ihr =>
    simp only [evaluate, consulted]
    split
    · simp [ihl, ihr, or_and_right, exists_or]
    · simp [ihl]
  | throws m exception => simp [evaluate, consulted, Verdict.holds, Verdict.plain]
  | _ => simp [consulted]

/-- What does not hold is decided by a leaf that is looked at. -/
theorem exists_deciding (h : (c.evaluate ctx).truth ≠ .yes) :
    ∃ l ∈ c.consulted ctx, (l.evaluate ctx).truth = (c.evaluate ctx).truth := by
  induction c with
  | connect l op r ihl ihr =>
    rw [truth_evaluate_connect] at h ⊢
    rcases Connective.exists_deciding h with left | ⟨needed, right⟩
    · rw [← left] at h ⊢
      obtain ⟨d, hd, truth⟩ := ihl h
      exact ⟨d, List.mem_append_left _ hd, truth⟩
    · rw [← right] at h ⊢
      obtain ⟨d, hd, truth⟩ := ihr h
      refine ⟨d, List.mem_append_right _ ?_, truth⟩
      rwa [if_pos needed]
  | throws m exception => exact absurd rfl h
  | _ => exact ⟨_, List.mem_singleton_self _, rfl⟩

/-- What the connective hands down to both operands reaches every leaf. -/
theorem forall_consulted_of_only {P : Truth → Prop} {op : Connective}
    (down : ∀ t u, P (op.combine t u) → P t ∧ P u) (only : c.Only op)
    (h : P (c.evaluate ctx).truth) : ∀ l ∈ c.consulted ctx, P (l.evaluate ctx).truth := by
  induction c with
  | connect l op' r ihl ihr =>
    obtain ⟨rfl, left, right⟩ := only
    rw [truth_evaluate_connect] at h
    obtain ⟨hl, hr⟩ := down _ _ h
    intro d hd
    rcases List.mem_append.mp hd with hd | hd
    · exact ihl left hl d hd
    · split at hd
      · exact ihr right hr d hd
      · cases hd
  | throws m exception => simp [consulted]
  | _ =>
    intro d hd
    obtain rfl := List.mem_singleton.mp hd
    exact h

/-! ## Strays -/

/-- Only the sites of leaves of another truth can be strays. -/
theorem decided_iff_no_strays (ctx : Context) (c : Constraint) :
    c.Decided ctx ↔ ∀ l ∈ c.consulted ctx, (l.evaluate ctx).truth ≠ (c.evaluate ctx).truth →
      ∀ s ∈ (l.evaluate ctx).sites, c.Lists ctx (c.evaluate ctx).truth s := by
  constructor
  · intro decided l hl _ s hs
    exact decided s ((mem_sites_iff ctx c s).mpr ⟨l, hl, hs⟩)
  · intro noStrays s hs
    obtain ⟨l, hl, hs⟩ := (mem_sites_iff ctx c s).mp hs
    by_cases same : (l.evaluate ctx).truth = (c.evaluate ctx).truth
    · exact ⟨l, consulted_subset_leaves ctx c hl, same, hs⟩
    · exact noStrays l hl same s hs

/-- Leaves that hold are no strays if the predicates are quiet. -/
theorem decided_of_quiet (quiet : c.Quiet ctx)
    (h : ∀ l ∈ c.consulted ctx, (l.evaluate ctx).truth ≠ (c.evaluate ctx).truth →
      (l.evaluate ctx).truth = .yes) : c.Decided ctx := by
  rw [decided_iff_no_strays]
  intro l hl other s hs
  have leaf : l ∈ c.leaves := consulted_subset_leaves ctx c hl
  have none_listed : (l.evaluate ctx).sites = [] := by
    cases predicate : l.isPredicate with
    | true => exact quiet l leaf predicate (h l hl other)
    | false => exact sites_of_leaf_holds l leaf predicate (h l hl other)
  rw [none_listed] at hs
  cases hs

theorem decided_of_failing_disjunction (only : c.Only .or) (h : (c.evaluate ctx).truth = .no) :
    c.Decided ctx := by
  rw [decided_iff_no_strays]
  intro l hl other
  have fails : (l.evaluate ctx).truth = .no :=
    forall_consulted_of_only (P := (· = .no)) (fun _ _ => Connective.or_fails) only h l hl
  exact absurd (fails.trans h.symm) other

theorem decided_of_unclear_conjunction (only : c.Only .and) (quiet : c.Quiet ctx)
    (h : (c.evaluate ctx).truth = .unclear) : c.Decided ctx := by
  refine decided_of_quiet quiet fun l hl other => ?_
  have keeps : (l.evaluate ctx).truth ≠ .no :=
    forall_consulted_of_only (P := (· ≠ .no)) (fun _ _ => Connective.and_keeps) only
      (by simp [h]) l hl
  rw [h] at other
  exact Truth.eq_yes_of_ne other keeps

/-- Where all that is looked at is clear, what does not hold fails. -/
theorem decided_of_clear (clear : ∀ l ∈ c.consulted ctx, (l.evaluate ctx).truth ≠ .unclear)
    (quiet : c.Quiet ctx) (h : (c.evaluate ctx).truth ≠ .yes) : c.Decided ctx := by
  obtain ⟨d, hd, decides⟩ := exists_deciding h
  have fails : (c.evaluate ctx).truth = .no := by
    have definite : (c.evaluate ctx).truth ≠ .unclear := decides ▸ clear d hd
    exact Decidable.byContradiction fun keeps => h (Truth.eq_yes_of_ne definite keeps)
  refine decided_of_quiet quiet fun l hl other => ?_
  rw [fails] at other
  exact Truth.eq_yes_of_ne (clear l hl) other

/-- **The sites of what does not hold are those of the leaves that are looked at**, one of which
decides. They are listed by leaves of the same truth exactly if there are no strays. There are none
where a disjunction fails. If the predicates are quiet, there are none where a conjunction is
unclear, and none where every leaf that is looked at is clear. -/
theorem decided_iff (h : (c.evaluate ctx).truth ≠ .yes) :
    (∀ s, s ∈ (c.evaluate ctx).sites ↔ ∃ l ∈ c.consulted ctx, s ∈ (l.evaluate ctx).sites) ∧
      (∃ l ∈ c.consulted ctx, (l.evaluate ctx).truth = (c.evaluate ctx).truth) ∧
      (c.Decided ctx ↔ ∀ l ∈ c.consulted ctx,
        (l.evaluate ctx).truth ≠ (c.evaluate ctx).truth →
          ∀ s ∈ (l.evaluate ctx).sites, c.Lists ctx (c.evaluate ctx).truth s) ∧
      ((c.evaluate ctx).truth = .no → c.Only .or → c.Decided ctx) ∧
      ((c.evaluate ctx).truth = .unclear → c.Only .and → c.Quiet ctx → c.Decided ctx) ∧
      ((∀ l ∈ c.consulted ctx, (l.evaluate ctx).truth ≠ .unclear) → c.Quiet ctx →
        c.Decided ctx) :=
  ⟨mem_sites_iff ctx c, exists_deciding h, decided_iff_no_strays ctx c,
    fun fails only => decided_of_failing_disjunction only fails,
    fun unclear only quiet => decided_of_unclear_conjunction only quiet unclear,
    fun clear quiet => decided_of_clear clear quiet h⟩

/-- A size and an algorithm are set, each at a site of its own. -/
def sizedView (alg : Content) : View :=
  ⟨"c", "c@1",
    [⟨"1", "alg", .argument 0, [⟨alg, none⟩]⟩,
     ⟨"2", "size", .argument 0, [⟨.constant (.int 64), none⟩]⟩],
    []⟩

/-- Neither the algorithm nor the size is allowed, and both sites are listed. -/
theorem decided_iff_either :
    let c : Constraint := .connect (.member (.whole "alg" "String") ["AES"]) .or
      (.member (.whole "size" "int") ["128"])
    let ctx : Context := ⟨sizedView (.constant (.text "DES")), noFacts, exactTypes, 4⟩
    (c.evaluate ctx).truth ≠ .yes ∧ (c.evaluate ctx).sites = ["1", "2"] ∧ c.Decided ctx := by
  intro c ctx
  have fails : (c.evaluate ctx).truth = .no := by decide +kernel
  have not_yes : (c.evaluate ctx).truth ≠ .yes := by simp [fails]
  obtain ⟨-, -, -, disjunction, -, -⟩ := decided_iff not_yes
  exact ⟨not_yes, by decide +kernel, disjunction fails ⟨rfl, trivial, trivial⟩⟩

/-- The size alone decides, but the site of the unknown algorithm is listed too. -/
theorem undecided_of_unclear_operand :
    let c : Constraint := .connect (.member (.whole "alg" "String") ["AES"]) .and
      (.member (.whole "size" "int") ["128"])
    let ctx : Context := ⟨sizedView .unknown, noFacts, exactTypes, 4⟩
    (c.evaluate ctx).truth = .no ∧ (c.evaluate ctx).sites = ["1", "2"] ∧
      ¬ c.Lists ctx .no "1" ∧ ¬ c.Decided ctx := by
  decide +kernel

end Constraint

end Misuse
