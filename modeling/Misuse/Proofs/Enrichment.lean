import Misuse.Proofs.Completion
import Misuse.Proofs.Lookups
import Misuse.Proofs.Reach
import Misuse.Proofs.Verdicts

/-!
# More facts

Truth is ordered: false, unclear, true. A fact that is established makes no lookup of an
unnegated predicate worse (`Agrees.lookup_le`), but it may make a constraint worse where a
predicate is negated or guarded, stands in a guard or to the left of an implication
(`Constraint.adverse`). Constraints without such places only rise (`truth_evaluate_le`), so
more facts never make one fail (`failing_publishAll_subset`).
-/

namespace Misuse

/-! ## The order of truth -/

namespace Truth

/-- What is unclear lies between. -/
def rank : Truth → Nat
  | .no => 0
  | .unclear => 1
  | .yes => 2

instance : LE Truth := ⟨fun t u => t.rank ≤ u.rank⟩

instance (t u : Truth) : Decidable (t ≤ u) := inferInstanceAs (Decidable (t.rank ≤ u.rank))

theorem le_refl (t : Truth) : t ≤ t := Nat.le_refl _

theorem le_of_eq {t u : Truth} (h : t = u) : t ≤ u := h ▸ t.le_refl

theorem ofBool_le {a b : Bool} (h : a = true → b = true) : ofBool a ≤ ofBool b := by
  cases a with
  | false => cases b <;> decide
  | true =>
    rw [h rfl]
    exact le_refl _

theorem eq_no_of_le {t u : Truth} (h : t ≤ u) (hu : u = .no) : t = .no := by
  subst hu
  revert h
  cases t <;> decide

/-- A connective rises with its operands, an implication only with the right one. -/
theorem combine_le {t u t' u' : Truth} (op : Connective) (hl : t ≤ u)
    (himplies : op = .implies → t = u) (hr : t' ≤ u') : op.combine t t' ≤ op.combine u u' := by
  revert hl himplies hr
  cases op <;> cases t <;> cases u <;> cases t' <;> cases u' <;> decide

end Truth

/-! ## Lookups -/

/-- Established facts make no unnegated predicate worse. -/
theorem FactStore.Agrees.lookup_le {s : FactStore} (h : s.Agrees) {facts : List Fact}
    (hfacts : ∀ f ∈ facts, f.negated = false) {p : Predicate} (hp : p.atom.negated = false)
    (cap : Nat) (view : View) :
    (s.lookup cap p view).truth ≤ ((s.publishAll facts).lookup cap p view).truth := by
  rw [truth_lookup, truth_lookup, hp, Bool.bne_false, Bool.bne_false]
  split
  · refine Truth.ofBool_le fun found => ?_
    exact decide_eq_true ((of_decide_eq_true found).of_positive h fun f hf _ => hfacts f hf)
  · exact Truth.le_refl _

/-! ## Places -/

namespace Constraint

/-- The predicates that are looked up, those of guards included. -/
def lookups (c : Constraint) : List Predicate := c.predicates.filter Predicate.isLookup

/-- The looked-up predicates where more facts may make the constraint worse: they are negated
or guarded, or stand in a guard or to the left of an implication. -/
def adverse : Constraint → List Predicate
  | .connect l op r => (if op = .implies then l.lookups else l.adverse) ++ r.adverse
  | .atom a => if a.negated then lookups (.atom a) else []
  | .guarded a g => lookups (.guarded a g)
  | _ => []

theorem adverse_subset_lookups (c : Constraint) : c.adverse ⊆ c.lookups := by
  induction c with
  | connect l op r ihl ihr =>
    have sides : lookups (.connect l op r) = r.lookups ++ l.lookups :=
      List.filter_append ..
    rw [sides, adverse]
    refine List.append_subset.mpr ⟨?_, List.subset_append_of_subset_left _ ihr⟩
    refine List.subset_append_of_subset_right _ ?_
    split
    · exact List.Subset.refl _
    · exact ihl
  | atom a =>
    rw [adverse]
    split
    · exact List.Subset.refl _
    · exact List.nil_subset _
  | guarded a g _ => exact List.Subset.refl _
  | _ => exact List.nil_subset _

theorem adverse_subset_connect (l : Constraint) (op : Connective) (r : Constraint) :
    l.adverse ⊆ adverse (.connect l op r) ∧ r.adverse ⊆ adverse (.connect l op r) := by
  rw [adverse]
  refine ⟨List.subset_append_of_subset_left _ ?_, List.subset_append_right ..⟩
  split
  · exact l.adverse_subset_lookups
  · exact List.Subset.refl _

variable {ctx : Context} {lookup : Lookup}

/-- What looks nothing up does not change with the lookup. -/
theorem truth_evaluate_of_lookups {c : Constraint} (h : c.lookups = []) :
    (c.evaluate ctx).truth = (c.evaluate (ctx.withLookup lookup)).truth := by
  refine congrArg Verdict.truth (c.evaluate_congr ctx lookup fun p hp hlookup => ?_)
  have : p ∈ c.lookups := List.mem_filter.mpr ⟨hp, hlookup⟩
  rw [h] at this
  cases this

/-- **A constraint rises with its lookups** if none of its predicates is at an adverse place. -/
theorem truth_evaluate_le {c : Constraint} (hc : c.adverse = [])
    (h : ∀ p : Predicate, p.atom.negated = false →
      (ctx.lookup p ctx.view).truth ≤ (lookup p ctx.view).truth) :
    (c.evaluate ctx).truth ≤ (c.evaluate (ctx.withLookup lookup)).truth := by
  induction c with
  | connect l op r ihl ihr =>
    rw [adverse, List.append_eq_nil_iff] at hc
    obtain ⟨hl, hr⟩ := hc
    rw [truth_evaluate_connect, truth_evaluate_connect]
    by_cases hop : op = .implies
    · rw [if_pos hop] at hl
      have left : (l.evaluate ctx).truth = (l.evaluate (ctx.withLookup lookup)).truth :=
        truth_evaluate_of_lookups hl
      exact Truth.combine_le op (Truth.le_of_eq left) (fun _ => left) (ihr hr)
    · rw [if_neg hop] at hl
      exact Truth.combine_le op (ihl hl) (fun h => absurd h hop) (ihr hr)
  | atom a =>
    cases hlookup : a.isLookup with
    | false =>
      have none : lookups (.atom a) = [] := by
        simp [lookups, predicates, Predicate.isLookup, hlookup]
      exact Truth.le_of_eq (truth_evaluate_of_lookups none)
    | true =>
      have positive : a.negated = false := by
        simpa [adverse, lookups, predicates, Predicate.isLookup, hlookup] using hc
      have asked : a.builtin? = none := by simpa [Atom.isLookup] using hlookup
      simp only [evaluate, Context.applies, asked]
      exact h ⟨a, none⟩ positive
  | guarded a g _ => exact Truth.le_of_eq (truth_evaluate_of_lookups hc)
  | _ => exact Truth.le_refl _

/-- So does what is made of it. -/
theorem judged_le {c : Constraint} (hc : c.adverse = [])
    (h : ∀ p : Predicate, p.atom.negated = false →
      (ctx.lookup p ctx.view).truth ≤ (lookup p ctx.view).truth) :
    c.judged ctx ≤ c.judged (ctx.withLookup lookup) := by
  refine judged_rel (R := (· ≤ ·)) (Truth.le_refl _) ?_ (truth_evaluate_le hc h) ?_
  · exact fun ht hu => Truth.combine_le .or ht (fun h => by cases h) hu
  · intro q hq p hp
    have adverse : p.toConstraint.adverse ⊆ c.adverse :=
      Requirement.subset_of_mem_members adverse_subset_connect hq p hp
    rw [hc] at adverse
    exact truth_evaluate_le (List.subset_nil.mp adverse) h

end Constraint

/-! ## Rules -/

/-- The object is judged by the facts of a store. -/
def FactStore.context (s : FactStore) (view : View) (subtyping : Subtyping) (cap cap' : Nat) :
    Context :=
  ⟨view, s.lookup cap', subtyping, cap⟩

/-- **More facts never make a constraint fail.** Take a rule whose looked-up predicates are not
negated and not guarded, and stand in no guard and not to the left of an implication. Whatever
was published and retracted before, facts that are established let every constraint rise, and
what is made of it. So the constraints that are violated or miss a predicate did so before, and
the same constraints wait for a variable. -/
theorem Rule.failing_publishAll_subset {r : Rule} (hr : ∀ c ∈ r.constraints, c.adverse = [])
    (ops : List FactStore.Op) {facts : List Fact} (hfacts : ∀ f ∈ facts, f.negated = false)
    (policy : Policy) (view : View) (subtyping : Subtyping) (cap cap' : Nat) :
    let before := (FactStore.after ops).context view subtyping cap cap'
    let later := ((FactStore.after ops).publishAll facts).context view subtyping cap cap'
    (∀ c ∈ r.constraints, (c.evaluate before).truth ≤ (c.evaluate later).truth ∧
      c.judged before ≤ c.judged later) ∧
    r.failing policy later ⊆ r.failing policy before ∧
    (r.judge policy later).pending = (r.judge policy before).pending := by
  intro before later
  have rises : ∀ p : Predicate, p.atom.negated = false →
      (before.lookup p before.view).truth ≤ (later.lookup p later.view).truth :=
    fun p hp => (FactStore.agrees_after ops).lookup_le hfacts hp cap' view
  refine ⟨fun c hc => ⟨?_, ?_⟩, fun i hi => ?_, rfl⟩
  · exact Constraint.truth_evaluate_le (hr c hc) rises
  · exact Constraint.judged_le (hr c hc) rises
  · obtain ⟨c, hc, hthrows, hready, hno⟩ := mem_failing_iff.mp hi
    refine mem_failing_iff.mpr ⟨c, hc, hthrows, hready, ?_⟩
    exact Truth.eq_no_of_le (Constraint.judged_le (hr c (List.mem_of_getElem? hc)) rises) hno

/-- A key has to be generated for the algorithm, and prepared for AES. -/
def preparedRule : Rule :=
  { Rule.empty "Cipher" with
    constraints :=
      [.atom ⟨"generated", [keyTerm, algTerm], false⟩,
       .connect (.member (.whole "alg" "String") ["AES"]) .implies
         (.atom ⟨"prepared", [keyTerm], false⟩)] }

/-- A key that was given up is generated for every algorithm. It still has to be prepared. -/
theorem Rule.failing_publishAll_subset_generated :
    let origin : Origin := ⟨"Generator", "g", "ready", "1"⟩
    let made : Fact := ⟨"generated", [.object "k@1", .constant "aes"], false, origin⟩
    let ops : List FactStore.Op := [.publish made, .retract [made]]
    let facts : List Fact := [{ made with args := [.object "k@1", .any] }]
    let before := (FactStore.after ops).context (keyedView "k@1" "AES") exactTypes 4 4
    let later :=
      ((FactStore.after ops).publishAll facts).context (keyedView "k@1" "AES") exactTypes 4 4
    (∀ c ∈ preparedRule.constraints, c.adverse = []) ∧ (∀ f ∈ facts, f.negated = false) ∧
      preparedRule.failing .default before = [1, 0] ∧
      preparedRule.failing .default later = [1] ∧
      preparedRule.failing .default later ⊆ preparedRule.failing .default before := by
  intro origin made ops facts before later
  have positive : ∀ c ∈ preparedRule.constraints, c.adverse = [] := by decide
  have established : ∀ f ∈ facts, f.negated = false := by decide
  refine ⟨positive, established, by decide +kernel, by decide +kernel, ?_⟩
  exact (failing_publishAll_subset positive ops established .default _ exactTypes 4 4).2.1

end Misuse
