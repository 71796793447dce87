import Misuse.Proofs.Completion
import Misuse.Proofs.Verdicts

/-!
# Disjunctions as alternatives

A tree of disjunctions over looked-up predicates can be judged as it stands, or by the alternatives
it offers: a flat list that keeps equal predicates once. The tree has the truth of the disjunction
of its leaves (`Disjoins.truth_evaluate`), which depends on nothing but the truths that occur among
them (`Truth.any_congr`). Predicates are equal up to what methods bind their results to, and no
verdict reads that (`truth_evaluate_forgetResults`) unless a lookup does. So the alternatives have
the truth of the tree, and what is recorded of them is what would be recorded of the tree, a missing
predicate in place of a violated constraint (`Rule.judged_as_alternatives`). A lookup that does read
results can tell the leaves apart of which one is kept (`Rule.judged_apart_by_result`).
-/

namespace Misuse

/-! ## Results of methods -/

/-- The truth is a function of the predicate: predicates that are equal get the same one. -/
def Lookup.Uniform (lookup : Lookup) : Prop :=
  ∀ (p q : Predicate) (view : View), p.same q = true →
    (lookup p view).truth = (lookup q view).truth

theorem Predicate.same_iff (p q : Predicate) :
    p.same q = true ↔ p.forgetResults = q.forgetResults := beq_iff_eq

namespace Term

variable (t : Term)

theorem forgetResults_forgetResults : t.forgetResults.forgetResults = t.forgetResults := by
  cases t <;> rfl

theorem var?_forgetResults : t.forgetResults.var? = t.var? := by
  cases t <;> rfl

theorem type?_forgetResults : t.forgetResults.type? = t.type? := by
  cases t <;> rfl

theorem method?_forgetResults :
    t.forgetResults.method? = t.method?.map Signature.forgetResult := by
  cases t <;> rfl

theorem keys_forgetResults (view : View) : t.forgetResults.keys view = t.keys view := by
  cases t <;> rfl

end Term

namespace Atom

variable (a : Atom)

theorem forgetResults_forgetResults : a.forgetResults.forgetResults = a.forgetResults := by
  simp [forgetResults, Term.forgetResults_forgetResults]

theorem mentions_forgetResults : a.forgetResults.mentions = a.mentions := by
  simp [mentions, forgetResults, List.filterMap_map, Term.var?_forgetResults]

theorem findSome?_var?_forgetResults :
    a.forgetResults.terms.findSome? Term.var? = a.terms.findSome? Term.var? := by
  simp [forgetResults, List.findSome?_map, Function.comp_def, Term.var?_forgetResults]

theorem findSome?_type?_forgetResults :
    a.forgetResults.terms.findSome? Term.type? = a.terms.findSome? Term.type? := by
  simp [forgetResults, List.findSome?_map, Function.comp_def, Term.type?_forgetResults]

theorem columns_forgetResults (view : View) : a.forgetResults.columns view = a.columns view := by
  simp [columns, forgetResults, Function.comp_def, Term.keys_forgetResults]

end Atom

theorem Constraint.forgetResults_forgetResults (c : Constraint) :
    c.forgetResults.forgetResults = c.forgetResults := by
  induction c with
  | connect l op r ihl ihr => simp only [forgetResults, ihl, ihr]
  | guarded a g ih => simp only [forgetResults, a.forgetResults_forgetResults, ih]
  | atom a => simp only [forgetResults, a.forgetResults_forgetResults]
  | _ => rfl

theorem Predicate.forgetResults_forgetResults (p : Predicate) :
    p.forgetResults.forgetResults = p.forgetResults := by
  obtain ⟨a, guard⟩ := p
  cases guard with
  | none => simp only [forgetResults, a.forgetResults_forgetResults, Option.map_none]
  | some g =>
    simp only [forgetResults, a.forgetResults_forgetResults, Option.map_some,
      g.forgetResults_forgetResults]

/-- A lookup that does not read results gives equal predicates the same truth. -/
theorem Lookup.uniform_of_forgetResults {lookup : Lookup}
    (h : ∀ p view, lookup p.forgetResults view = lookup p view) : lookup.Uniform := by
  intro p q view same
  rw [← h p, ← h q, (Predicate.same_iff p q).mp same]

/-- A store answers from the name and the keys of a predicate. -/
theorem FactStore.uniform_lookup (s : FactStore) (cap : Nat) : (s.lookup cap).Uniform := by
  apply Lookup.uniform_of_forgetResults
  intro p view
  simp only [lookup, Predicate.forgetResults, Atom.exactColumns?, Atom.columns_forgetResults]
  rfl

namespace Context

variable (ctx : Context)

theorem matchingCalls_forgetResults (a : Atom) :
    ctx.matchingCalls a.forgetResults = ctx.matchingCalls a := by
  have methods : a.forgetResults.terms.filterMap Term.method? =
      (a.terms.filterMap Term.method?).map Signature.forgetResult := by
    simp [Atom.forgetResults, List.filterMap_map, Term.method?_forgetResults, List.map_filterMap]
  unfold matchingCalls
  rw [methods]
  simp only [List.any_map]
  rfl

theorem builtin_forgetResults (a : Atom) (b : Builtin) :
    ctx.builtin a.forgetResults b = ctx.builtin a b := by
  cases b <;> simp only [builtin, typed, valued, matchingCalls_forgetResults,
    Atom.findSome?_var?_forgetResults, Atom.findSome?_type?_forgetResults]

variable {ctx} (uniform : ctx.lookup.Uniform)
include uniform

theorem truth_applies_forgetResults (p : Predicate) :
    (ctx.applies p.forgetResults).truth = (ctx.applies p).truth := by
  have builtin : p.forgetResults.atom.builtin? = p.atom.builtin? := rfl
  have negated : p.forgetResults.atom.negated = p.atom.negated := rfl
  unfold applies
  rw [builtin, negated]
  cases p.atom.builtin? with
  | some b =>
    have same : ctx.builtin p.forgetResults.atom b = ctx.builtin p.atom b :=
      ctx.builtin_forgetResults p.atom b
    simp only [same]
  | none =>
    apply uniform
    rw [Predicate.same_iff, p.forgetResults_forgetResults]

end Context

/-! ## Trees -/

namespace Truth

variable (ts us : List Truth)

theorem any_append : any (ts ++ us) = (any ts).or (any us) := by
  induction ts with
  | nil =>
    show any us = Truth.no.or (any us)
    cases any us <;> rfl
  | cons t ts ih =>
    rw [List.cons_append, any, any, ih]
    cases t <;> cases any ts <;> cases any us <;> rfl

variable {ts us}

theorem any_eq_yes_iff : any ts = .yes ↔ .yes ∈ ts := by
  rw [any_eq]
  split
  next holds => simpa using holds
  next fails => split <;> simpa using fails

theorem any_eq_no_iff : any ts = .no ↔ ∀ t ∈ ts, t = .no := by
  induction ts with
  | nil => simp [any]
  | cons t ts ih =>
    rw [any, List.forall_mem_cons, ← ih]
    cases t <;> cases any ts <;> simp [Truth.or]

/-- Which truths occur is all that counts. -/
theorem any_congr (h : ∀ t, t ∈ ts ↔ t ∈ us) : any ts = any us := by
  simp only [any_eq, List.contains_iff_mem, h]

end Truth

section Trees

variable {ctx : Context} {c : Constraint}

/-- **A tree of disjunctions has the truth of the disjunction of its leaves.** -/
theorem Constraint.Disjoins.truth_evaluate {ps : List Predicate} (h : c.Disjoins ps) :
    (c.evaluate ctx).truth = Truth.any (ps.map fun p => (p.evaluate ctx).truth) := by
  induction h with
  | leaf p _ =>
    show (p.evaluate ctx).truth = (p.evaluate ctx).truth.or .no
    cases (p.evaluate ctx).truth <;> rfl
  | or _ _ ihl ihr =>
    rw [truth_evaluate_connect, ihl, ihr, List.map_append, Truth.any_append]
    rfl

variable (uniform : ctx.lookup.Uniform)
include uniform

theorem Constraint.truth_evaluate_forgetResults (c : Constraint) :
    (c.forgetResults.evaluate ctx).truth = (c.evaluate ctx).truth := by
  induction c with
  | connect l op r ihl ihr =>
    simp only [forgetResults, truth_evaluate_connect, ihl, ihr]
  | atom a => exact Context.truth_applies_forgetResults uniform ⟨a, none⟩
  | guarded a g ih =>
    have applies := Context.truth_applies_forgetResults uniform ⟨a, some g⟩
    simp only [forgetResults, evaluate, ih]
    split
    · rfl
    · exact applies
  | _ => rfl

/-- Equal predicates have one truth. -/
theorem Predicate.truth_evaluate_of_same {p q : Predicate}
    (h : p.forgetResults = q.forgetResults) :
    (p.evaluate ctx).truth = (q.evaluate ctx).truth := by
  have forget (p : Predicate) : (p.forgetResults.evaluate ctx).truth = (p.evaluate ctx).truth := by
    have tree : p.forgetResults.toConstraint = p.toConstraint.forgetResults := by
      obtain ⟨a, guard⟩ := p
      cases guard <;> rfl
    rw [evaluate, tree]
    exact p.toConstraint.truth_evaluate_forgetResults uniform
  rw [← forget p, h, forget q]

end Trees

namespace Context

/-- Leaves of the tree that are equal have one truth. -/
def Alike (ctx : Context) (c : Constraint) : Prop :=
  ∀ ps, c.Disjoins ps → ∀ p ∈ ps, ∀ q ∈ ps, p.same q = true →
    (p.evaluate ctx).truth = (q.evaluate ctx).truth

/-- Nothing but a lookup tells equal predicates apart. -/
theorem alike_of_uniform {ctx : Context} (uniform : ctx.lookup.Uniform) (c : Constraint) :
    ctx.Alike c :=
  fun _ _ p _ q _ same =>
    Predicate.truth_evaluate_of_same uniform ((Predicate.same_iff p q).mp same)

end Context

/-- **The alternatives have the truth of the tree.** -/
theorem Constraint.truth_alternatives {ctx : Context} {c : Constraint} (alike : ctx.Alike c)
    {a : Alternatives} (h : c.alternatives? = some a) :
    (c.evaluate ctx).truth = Truth.any (a.members.map fun p => (p.evaluate ctx).truth) := by
  rw [alternatives?_eq] at h
  obtain ⟨ps, hps, rfl⟩ := Option.map_eq_some_iff.mp h
  rw [disjuncts?_eq_some_iff] at hps
  have equal : ∀ p ∈ ps, ∀ q ∈ ps, p.forgetResults = q.forgetResults →
      (p.evaluate ctx).truth = (q.evaluate ctx).truth :=
    fun p hp q hq same => alike ps hps p hp q hq ((Predicate.same_iff p q).mpr same)
  rw [hps.truth_evaluate]
  apply Truth.any_congr
  exact fun t => (mem_map_distinctBy_of_congr equal t).symm

/-! ## Records -/

/-- The kind of record that a truth calls for, if any: a failure, or an advisory. -/
def Truth.recordKind? (failure : Violation.Kind) : Truth → Option Violation.Kind
  | .yes => none
  | .no => some failure
  | .unclear => some .impreciseValue

namespace Rule

theorem kind_directRecord? (r : Rule) (ctx : Context) (c : Constraint) :
    (r.directRecord? ctx c).map Violation.kind =
      (c.evaluate ctx).truth.recordKind? .constraint := by
  simp only [directRecord?]
  cases (c.evaluate ctx).truth <;> rfl

theorem kind_requiredRecord? (r : Rule) (ctx : Context) (q : Required) :
    (r.requiredRecord? ctx q).map Violation.kind =
      (requirementTruth ctx q.requirement).recordKind? .missingPredicate := by
  simp only [requiredRecord?]
  cases requirementTruth ctx q.requirement <;> rfl

/-- **A disjunction is judged as its alternatives are.** Take a tree of disjunctions that offers
alternatives, nested in whatever way, its predicates guarded or negated, some of them equal. Equal
leaves have one truth if the lookup is uniform. If they have, then the tree holds if some
alternative does, fails if all of them do, and is unclear otherwise. So nothing is recorded of the
alternatives, or a missing predicate, or an advisory, where nothing would be recorded of the tree,
or its violation, or an advisory. -/
theorem judged_as_alternatives {ctx : Context} {c : Constraint} {a : Alternatives}
    (h : c.alternatives? = some a) :
    (ctx.lookup.Uniform → ctx.Alike c) ∧
      (ctx.Alike c →
        ((c.evaluate ctx).truth = .yes ↔ ∃ p ∈ a.members, (p.evaluate ctx).truth = .yes) ∧
        ((c.evaluate ctx).truth = .no ↔ ∀ p ∈ a.members, (p.evaluate ctx).truth = .no) ∧
        ((c.evaluate ctx).truth = .unclear ↔
          (¬ ∃ p ∈ a.members, (p.evaluate ctx).truth = .yes) ∧
            ¬ ∀ p ∈ a.members, (p.evaluate ctx).truth = .no) ∧
        ∀ (r : Rule) (i : Nat) (anchor : Option String),
          let direct := (r.directRecord? ctx c).map Violation.kind
          let required := (r.requiredRecord? ctx ⟨.anyOf a, i, anchor⟩).map Violation.kind
          (required = none ↔ direct = none) ∧
            (required = some .missingPredicate ↔ direct = some .constraint) ∧
            (required = some .impreciseValue ↔ direct = some .impreciseValue)) := by
  refine ⟨fun uniform => Context.alike_of_uniform uniform c, fun alike => ?_⟩
  have truth : (c.evaluate ctx).truth =
      Truth.any (a.members.map fun p => (p.evaluate ctx).truth) := c.truth_alternatives alike h
  have holds : (c.evaluate ctx).truth = .yes ↔
      ∃ p ∈ a.members, (p.evaluate ctx).truth = .yes := by
    rw [truth, Truth.any_eq_yes_iff, List.mem_map]
  have fails : (c.evaluate ctx).truth = .no ↔
      ∀ p ∈ a.members, (p.evaluate ctx).truth = .no := by
    rw [truth, Truth.any_eq_no_iff, List.forall_mem_map]
  refine ⟨holds, fails, ?_, fun r i anchor => ?_⟩
  · rw [← holds, ← fails]
    cases (c.evaluate ctx).truth <;> decide
  · have same : requirementTruth ctx (.anyOf a) = (c.evaluate ctx).truth := by
      rw [truth, requirementTruth_eq]
      rfl
    simp only [kind_directRecord?, kind_requiredRecord?, same]
    cases (c.evaluate ctx).truth <;> decide

/-- A cipher is initialised with a key, and nothing is known of its vector. -/
def vectorView : View :=
  ⟨"c", "c@1",
    [⟨"1", "key", .argument 0, [⟨.object "k@1", none⟩]⟩,
      ⟨"1", "iv", .argument 1, [⟨.unknown, none⟩]⟩],
    [⟨"1", ⟨"Cipher", "init", ["Key", "IV"]⟩, "Cipher"⟩]⟩

/-- The key of a cipher that is initialised has to be generated. The guard may name a result. -/
def generatedIfInit (result : Parameter) : Predicate :=
  ⟨⟨"generated", [.var (.whole "key" "Key")], false⟩,
    some (.atom ⟨"callTo",
      [.method ⟨"Cipher.init", [⟨"key", "Key"⟩, ⟨"iv", "IV"⟩], result⟩], false⟩)⟩

/-- The key is generated, or the vector prepared, or the key not exposed. -/
def vectorChoice : Constraint :=
  .connect
    (.connect (generatedIfInit .unnamed).toConstraint .or
      (.atom ⟨"prepared", [.var (.whole "iv" "IV")], false⟩)) .or
    (.connect (generatedIfInit ⟨"done", "boolean"⟩).toConstraint .or
      (.atom ⟨"exposed", [.var (.whole "key" "Key")], true⟩))

/-- Of four leaves two are equal. The key is not generated and it is exposed; of the vector nothing
is known, so there is an advisory, of the tree as of the three alternatives. -/
theorem judged_as_alternatives_vector :
    let exposed : Fact := ⟨"exposed", [.object "k@1"], false, ⟨"Vault", "v", "open", "2"⟩⟩
    let ctx : Context :=
      ⟨vectorView, (FactStore.after [.publish exposed]).lookup 4, exactTypes, 4⟩
    let a : Alternatives :=
      ⟨[generatedIfInit .unnamed, .plain "prepared" [.var (.whole "iv" "IV")],
        (Predicate.plain "exposed" [.var (.whole "key" "Key")]).negate]⟩
    ctx.Alike vectorChoice ∧ vectorChoice.alternatives? = some a ∧
      (vectorChoice.evaluate ctx).truth = .unclear ∧
      (Rule.requiredRecord? (.empty "Cipher") ctx ⟨.anyOf a, 0, some "1"⟩).map Violation.kind =
        some .impreciseValue := by
  intro exposed ctx a
  have offers : vectorChoice.alternatives? = some a := by decide +kernel
  have alike : ctx.Alike vectorChoice :=
    (judged_as_alternatives offers).1 (FactStore.uniform_lookup _ 4)
  obtain ⟨-, -, unclear, records⟩ := (judged_as_alternatives offers).2 alike
  have truth : (vectorChoice.evaluate ctx).truth = .unclear :=
    unclear.mpr ⟨by decide +kernel, by decide +kernel⟩
  refine ⟨alike, offers, truth, ?_⟩
  apply (records (.empty "Cipher") 0 (some "1")).2.2.mpr
  rw [kind_directRecord?, truth]
  rfl

/-- Exactly the predicates hold in which a method binds its result. -/
def bindsResult : Lookup := fun p _ => .plain (.ofBool (p != p.forgetResults))

/-- The two leaves are equal but for a result, by which the lookup tells them apart. The second one
holds, and so does the tree, but only the first is an alternative. -/
theorem judged_apart_by_result :
    let plain := generatedIfInit .unnamed
    let named := generatedIfInit ⟨"done", "boolean"⟩
    let c : Constraint := .connect plain.toConstraint .or named.toConstraint
    let ctx : Context := ⟨vectorView, bindsResult, exactTypes, 4⟩
    let a : Alternatives := ⟨[plain]⟩
    c.alternatives? = some a ∧ (c.evaluate ctx).truth = .yes ∧
      (∀ p ∈ a.members, (p.evaluate ctx).truth = .no) ∧
      (Rule.directRecord? (.empty "Cipher") ctx c).map Violation.kind = none ∧
      (Rule.requiredRecord? (.empty "Cipher") ctx ⟨.anyOf a, 0, some "1"⟩).map Violation.kind =
        some .missingPredicate := by
  decide +kernel

end Rule

end Misuse
