import Misuse.Proofs.Disjunctions
import Misuse.Proofs.Placements

/-!
# Nestings of disjunctions

A disjunction offers the same alternatives however it is nested (`same_ofList_iff`), mentions the
same variables, and so waits as long and is anchored at the same site. But it is required only if
its last operand is a single predicate, as it is if the predicates are joined one by one
(`ofConstraint?_anyOf?`). Of two disjunctions of the same predicates, both are in one part if both
end in a predicate or neither does (`together_iff`), and the nesting can make one direct that is
required otherwise (`apart_of_nestings`).
-/

namespace Misuse

/-! ## The same predicates -/

/-- Each predicate that occurs in one list occurs in the other, up to what methods bind their
results to. -/
def SamePredicates (ps qs : List Predicate) : Prop :=
  ∀ k, k ∈ ps.map Predicate.forgetResults ↔ k ∈ qs.map Predicate.forgetResults

namespace SamePredicates

variable {ps qs rs : List Predicate}

theorem symm (h : SamePredicates ps qs) : SamePredicates qs ps := fun k => (h k).symm

theorem trans (h : SamePredicates ps qs) (h' : SamePredicates qs rs) : SamePredicates ps rs :=
  fun k => (h k).trans (h' k)

theorem distinctBy (ps : List Predicate) :
    SamePredicates (distinctBy Predicate.forgetResults ps) ps :=
  fun k => mem_map_distinctBy Predicate.forgetResults k ps

/-- The same variables are mentioned. -/
theorem mentions (h : SamePredicates ps qs) (x : String) :
    (x ∈ ps.flatMap fun p => p.atom.mentions) ↔ x ∈ qs.flatMap fun p => p.atom.mentions := by
  have forget (ps : List Predicate) : (x ∈ ps.flatMap fun p => p.atom.mentions) ↔
      ∃ k ∈ ps.map Predicate.forgetResults, x ∈ k.atom.mentions := by
    simp only [List.mem_flatMap, List.mem_map, exists_exists_and_eq_and, Predicate.forgetResults,
      Atom.mentions_forgetResults]
  simp only [forget, h _]

end SamePredicates

namespace Alternatives

variable (a b : Alternatives)

theorem any_same_iff (p : Predicate) :
    b.members.any p.same = true ↔ p.forgetResults ∈ b.members.map Predicate.forgetResults := by
  rw [List.any_eq_true, List.mem_map]
  exact exists_congr fun q => and_congr_right fun _ => (p.same_iff q).trans eq_comm

theorem same_iff : a.same b = true ↔ SamePredicates a.members b.members := by
  simp only [same, Bool.and_eq_true, List.all_eq_true, any_same_iff]
  constructor
  · rintro ⟨left, right⟩ k
    constructor <;> rintro hk <;> obtain ⟨p, hp, rfl⟩ := List.mem_map.mp hk
    · exact left p hp
    · exact right p hp
  · intro h
    exact ⟨fun p hp => (h _).mp (List.mem_map_of_mem hp),
      fun q hq => (h _).mpr (List.mem_map_of_mem hq)⟩

/-- **Alternatives are the set of the predicates.** -/
theorem same_ofList_iff {ps qs : List Predicate} :
    (ofList ps).same (ofList qs) = true ↔ SamePredicates ps qs := by
  have kept (ps : List Predicate) : SamePredicates (ofList ps).members ps :=
    SamePredicates.distinctBy ps
  rw [same_iff]
  exact ⟨fun h => ((kept ps).symm.trans h).trans (kept qs),
    fun h => ((kept ps).trans h).trans (kept qs).symm⟩

end Alternatives

/-! ## Trees -/

namespace Constraint

variable {c : Constraint} {ps : List Predicate}

theorem Disjoins.mentions (tree : c.Disjoins ps) :
    c.mentions = ps.flatMap fun p => p.atom.mentions := by
  induction tree with
  | leaf p _ =>
    obtain ⟨a, guard⟩ := p
    cases guard <;> simp [Predicate.toConstraint, Constraint.mentions]
  | or _ _ ihl ihr => rw [Constraint.mentions, ihl, ihr, List.flatMap_append]

theorem Disjoins.alternatives? (tree : c.Disjoins ps) :
    c.alternatives? = some (Alternatives.ofList ps) := by
  rw [alternatives?_eq, disjuncts?_eq_some_iff.mpr tree, Option.map_some]

/-- A predicate that is a tree of disjunctions is looked up. -/
theorem Disjoins.isLookup_of_predicate? (tree : c.Disjoins ps) {p : Predicate}
    (single : c.predicate? = some p) : p.isLookup = true := by
  cases tree with
  | leaf q lookup =>
    obtain ⟨a, guard⟩ := q
    cases guard <;> cases single <;> exact lookup
  | or _ _ => cases single

theorem Disjoins.exists_right {l m : Constraint} (tree : (Constraint.connect l .or m).Disjoins ps) :
    ∃ rs, m.Disjoins rs := by
  generalize hc : Constraint.connect l .or m = c at tree
  cases tree with
  | leaf p _ =>
    obtain ⟨a, guard⟩ := p
    cases guard <;> cases hc
  | or _ right =>
    cases hc
    exact ⟨_, right⟩

/-- A disjunction is a requirement if its last operand is a predicate. -/
theorem Disjoins.ofConstraint?_connect {l m : Constraint}
    (tree : (Constraint.connect l .or m).Disjoins ps) :
    Requirement.ofConstraint? (.connect l .or m) =
      if m.predicate?.isSome then some (.anyOf (Alternatives.ofList ps)) else none := by
  cases single : m.predicate? with
  | none => simp only [Requirement.ofConstraint?, single, Option.isSome_none, Bool.false_eq_true,
      if_false]
  | some p =>
    obtain ⟨rs, right⟩ := tree.exists_right
    have lookup : p.isLookup = true := right.isLookup_of_predicate? single
    simp only [Requirement.ofConstraint?, single, lookup, if_true, tree.alternatives?,
      Option.map_some, Option.isSome_some]

theorem Disjoins.foldl (tree : c.Disjoins ps) {qs : List Predicate}
    (lookup : ∀ q ∈ qs, q.isLookup = true) :
    (qs.foldl (fun d q => connect d .or q.toConstraint) c).Disjoins (ps ++ qs) := by
  induction qs generalizing c ps with
  | nil =>
    rw [List.append_nil]
    exact tree
  | cons q qs ih =>
    obtain ⟨hq, hqs⟩ := List.forall_mem_cons.mp lookup
    rw [List.foldl_cons, List.append_cons]
    exact ih (.or tree (.leaf q hq)) hqs

/-- **Alternatives that are joined one by one are required**, since they are nested to the left. -/
theorem ofConstraint?_anyOf? {p : Predicate} {qs : List Predicate} (several : qs ≠ [])
    (lookup : ∀ q ∈ p :: qs, q.isLookup = true) (h : anyOf? (p :: qs) = some c) :
    Requirement.ofConstraint? c = some (.anyOf (Alternatives.ofList (p :: qs))) := by
  obtain ⟨hp, hqs⟩ := List.forall_mem_cons.mp lookup
  obtain rfl := Option.some.inj h
  have tree := (Disjoins.leaf p hp).foldl hqs
  -- the fold ends with the last predicate as the right operand
  obtain ⟨init, last, rfl⟩ := List.eq_nil_or_concat qs |>.resolve_left several
  simp only [List.concat_eq_append, List.foldl_concat] at tree ⊢
  have single : last.toConstraint.predicate?.isSome = true := by
    obtain ⟨a, guard⟩ := last
    cases guard <;> rfl
  rw [tree.ofConstraint?_connect, if_pos single]
  rfl

end Constraint

/-! ## Places -/

theorem View.firstSite?_congr (view : View) {xs ys : List String} (h : ∀ x, x ∈ xs ↔ x ∈ ys) :
    view.firstSite? xs = view.firstSite? ys := by
  have contains (x : String) : xs.contains x = ys.contains x := by
    rw [Bool.eq_iff_iff, List.contains_iff_mem, List.contains_iff_mem, h]
  simp only [firstSite?, contains]

namespace Policy

variable {policy : Policy} {view : View}

/-- Equal alternatives are anchored at one site. -/
theorem anchor?_of_same {a b : Alternatives} (h : a.same b = true) :
    policy.anchor? view (.anyOf a) = policy.anchor? view (.anyOf b) := by
  apply View.firstSite?_congr
  intro x
  have mentions := ((a.same_iff b).mp h).mentions x
  simp only [Requirement.members, List.mem_filter, mentions]

theorem isReady_of_samePredicates {c d : Constraint} {ps qs : List Predicate}
    (tree : c.Disjoins ps) (tree' : d.Disjoins qs) (same : SamePredicates ps qs) :
    policy.isReady view c = policy.isReady view d := by
  rw [Bool.eq_iff_iff, isReady_iff, isReady_iff, tree.mentions, tree'.mentions]
  simp only [same.mentions]

end Policy

namespace Partition

/-- Two indices are in the same parts. -/
def Together (p : Partition) (i j : Nat) : Prop :=
  (i ∈ p.direct ↔ j ∈ p.direct) ∧
    (i ∈ p.required.map Required.index ↔ j ∈ p.required.map Required.index) ∧
      (i ∈ p.pending ↔ j ∈ p.pending)

instance (p : Partition) (i j : Nat) : Decidable (p.Together i j) :=
  inferInstanceAs (Decidable (_ ∧ _ ∧ _))

end Partition

namespace Policy

section Tree

variable (policy : Policy) (view : View) {r : Rule} {indices : List Nat} {i : Nat}
  {l m : Constraint} {ps : List Predicate} (tree : (Constraint.connect l .or m).Disjoins ps)
  (hi : i ∈ indices) (hc : r.constraints[i]? = some (.connect l .or m))
include hi hc

theorem mem_pending_disjunction_iff : i ∈ (policy.partition r view indices).pending ↔
    policy.isReady view (.connect l .or m) = false := by
  rw [mem_pending_iff]
  simp [hi, hc, Constraint.isThrows]

include tree

/-- A disjunction that does not wait is required if its last operand is a predicate. -/
theorem mem_required_disjunction_iff :
    i ∈ (policy.partition r view indices).required.map Required.index ↔
      policy.isReady view (.connect l .or m) = true ∧ m.predicate?.isSome = true := by
  rw [mem_required_index_iff]
  simp [hi, hc, Constraint.isThrows, tree.ofConstraint?_connect]

/-- Otherwise it is direct. -/
theorem mem_direct_disjunction_iff : i ∈ (policy.partition r view indices).direct ↔
    policy.isReady view (.connect l .or m) = true ∧ m.predicate?.isSome = false := by
  rw [mem_direct_iff]
  simp [hi, hc, Constraint.isThrows, tree.ofConstraint?_connect]

omit hi in
/-- What it requires are all its alternatives. -/
theorem requirement_of_disjunction {q : Required}
    (hq : q ∈ (policy.partition r view indices).required) (index : q.index = i) :
    q.requirement = .anyOf (Alternatives.ofList ps) ∧
      q.anchor = policy.anchor? view (.anyOf (Alternatives.ofList ps)) := by
  obtain ⟨⟨-, c, hc', -, -, form⟩, anchor⟩ := mem_required_iff.mp hq
  obtain rfl : Constraint.connect l .or m = c := Option.some.inj (hc.symm.trans (index ▸ hc'))
  rw [tree.ofConstraint?_connect] at form
  split at form
  · have requirement := (Option.some.inj form).symm
    exact ⟨requirement, anchor.trans (congrArg (policy.anchor? view) requirement)⟩
  · cases form

end Tree

/-- **The nesting decides only whether a disjunction is required.** Take two disjunctions of the
same predicates among the constraints of a rule, in any order and nested in whatever way. They offer
equal alternatives, and both wait or neither does. What does not wait is required if its last
operand is a single predicate, and direct otherwise. So both are in one part if they wait, or both
end in a predicate, or neither does. If both are required, then both their requirements are
their alternatives, anchored at one site. -/
theorem together_iff (policy : Policy) {r : Rule} (view : View) {indices : List Nat}
    {l m l' m' : Constraint} {ps qs : List Predicate}
    (tree : (Constraint.connect l .or m).Disjoins ps)
    (tree' : (Constraint.connect l' .or m').Disjoins qs) (same : SamePredicates ps qs)
    {i j : Nat} (hi : i ∈ indices) (hc : r.constraints[i]? = some (.connect l .or m))
    (hj : j ∈ indices) (hd : r.constraints[j]? = some (.connect l' .or m')) :
    let p := policy.partition r view indices
    (i ∈ p.pending ↔ j ∈ p.pending) ∧
      (i ∉ p.pending → (i ∈ p.required.map Required.index ↔ m.predicate?.isSome = true) ∧
        (i ∈ p.direct ↔ m.predicate?.isSome = false)) ∧
      (p.Together i j ↔ i ∈ p.pending ∨ m.predicate?.isSome = m'.predicate?.isSome) ∧
      ∃ a b, Constraint.alternatives? (.connect l .or m) = some a ∧
        Constraint.alternatives? (.connect l' .or m') = some b ∧ a.same b = true ∧
        ∀ q ∈ p.required, q.index = i → ∀ q' ∈ p.required, q'.index = j →
          q.requirement = .anyOf a ∧ q'.requirement = .anyOf b ∧ q.anchor = q'.anchor := by
  intro p
  have ready : policy.isReady view (.connect l .or m) = policy.isReady view (.connect l' .or m') :=
    isReady_of_samePredicates tree tree' same
  have equal : (Alternatives.ofList ps).same (Alternatives.ofList qs) = true :=
    Alternatives.same_ofList_iff.mpr same
  have pending := mem_pending_disjunction_iff policy view hi hc
  have required := mem_required_disjunction_iff policy view tree hi hc
  have direct := mem_direct_disjunction_iff policy view tree hi hc
  have pending' := mem_pending_disjunction_iff policy view hj hd
  have required' := mem_required_disjunction_iff policy view tree' hj hd
  have direct' := mem_direct_disjunction_iff policy view tree' hj hd
  refine ⟨?_, ?_, ?_, _, _, tree.alternatives?, tree'.alternatives?, equal, ?_⟩
  · rw [pending, pending', ready]
  · rw [pending, required, direct]
    intro decided
    simp only [Bool.not_eq_false] at decided
    simp only [decided, true_and, and_self]
  · rw [Partition.Together, pending, pending', required, required', direct, direct', ready]
    cases policy.isReady view (.connect l' .or m') <;> cases m.predicate?.isSome <;>
      cases m'.predicate?.isSome <;> simp
  · intro q hq index q' hq' index'
    obtain ⟨requirement, anchor⟩ := requirement_of_disjunction policy view tree hc hq index
    obtain ⟨requirement', anchor'⟩ := requirement_of_disjunction policy view tree' hd hq' index'
    exact ⟨requirement, requirement',
      anchor.trans ((anchor?_of_same equal).trans anchor'.symm)⟩

/-- What has to hold of the key of a cipher. -/
def ofKey (name : String) : Predicate := .plain name [.var (.whole "key" "Key")]

/-- `(generated || derived) || wrapped` -/
def leftNested : Constraint :=
  .connect (.connect (ofKey "generated").toConstraint .or (ofKey "derived").toConstraint) .or
    (ofKey "wrapped").toConstraint

/-- `generated || (derived || wrapped)` -/
def rightNested : Constraint :=
  .connect (ofKey "generated").toConstraint .or
    (.connect (ofKey "derived").toConstraint .or (ofKey "wrapped").toConstraint)

/-- `(wrapped || (derived || wrapped)) || generated` -/
def mixedNested : Constraint :=
  .connect
    (.connect (ofKey "wrapped").toConstraint .or
      (.connect (ofKey "derived").toConstraint .or (ofKey "wrapped").toConstraint)) .or
    (ofKey "generated").toConstraint

/-- Both disjunctions end in a predicate, and are required. -/
theorem together_iff_mixed :
    let r := Rule.keyCipher [Rule.initKey] [leftNested, mixedNested] []
    let p := default.partition r keyView [0, 1]
    p.required.map Required.index = [0, 1] ∧ p.Together 0 1 ∧
      ∃ a b, leftNested.alternatives? = some a ∧ mixedNested.alternatives? = some b ∧
        a.same b = true ∧ ∀ q ∈ p.required, q.index = 0 → ∀ q' ∈ p.required, q'.index = 1 →
          q.requirement = .anyOf a ∧ q'.requirement = .anyOf b ∧ q.anchor = q'.anchor := by
  intro r p
  let left := ["generated", "derived", "wrapped"].map ofKey
  let mixed := ["wrapped", "derived", "wrapped", "generated"].map ofKey
  have tree : leftNested.Disjoins left := Constraint.disjuncts?_eq_some_iff.mp rfl
  have tree' : mixedNested.Disjoins mixed := Constraint.disjuncts?_eq_some_iff.mp rfl
  have same : SamePredicates left mixed := Alternatives.same_ofList_iff.mp (by decide)
  have first : r.constraints[0]? = some leftNested := rfl
  have second : r.constraints[1]? = some mixedNested := rfl
  have here : 0 ∈ [0, 1] ∧ 1 ∈ [0, 1] := by decide
  obtain ⟨-, -, together, equal⟩ :=
    default.together_iff keyView tree tree' same here.1 first here.2 second
  exact ⟨by decide +kernel, together.mpr (.inr rfl), equal⟩

/-- The same predicates in the same order are required in one nesting and direct in the other. -/
theorem apart_of_nestings :
    let r := Rule.keyCipher [Rule.initKey] [leftNested, rightNested] []
    let p := default.partition r keyView [0, 1]
    let left := ["generated", "derived", "wrapped"].map ofKey
    leftNested.Disjoins left ∧ rightNested.Disjoins left ∧
      p.required.map Required.index = [0] ∧ p.direct = [1] ∧ ¬ p.Together 0 1 := by
  exact ⟨Constraint.disjuncts?_eq_some_iff.mp rfl, Constraint.disjuncts?_eq_some_iff.mp rfl,
    by decide +kernel, by decide +kernel, by decide +kernel⟩

end Policy

end Misuse
