import Misuse.Proofs.Deciding
import Misuse.Proofs.Nesting

/-!
# Which constraints are alternatives

A worklist takes a constraint apart and collects alternatives. It ends for every tree of
connectives, and finds alternatives exactly if the tree is a choice: all its connectives are
disjunctions, and what they join are looked-up predicates. The members are then the joined
predicates from left to right, each kept where it occurs first, so that they depend on nothing but
the set of these predicates (`alternatives?_iff_choice`).
-/

namespace Misuse

namespace Constraint

/-- What the connectives of a tree join, from left to right. -/
def operands : Constraint → List Constraint
  | .connect l _ r => l.operands ++ r.operands
  | c => [c]

/-- The predicates that the connectives join, from left to right. -/
def joined (c : Constraint) : List Predicate := c.operands.filterMap predicate?

/-- All connectives are disjunctions, and what they join are looked-up predicates. -/
structure Choice (c : Constraint) : Prop where
  connectives : c.Only .or
  lookups : ∀ o ∈ c.operands, ∃ p, o.predicate? = some p ∧ p.isLookup = true

variable {c : Constraint} {ps : List Predicate}

@[simp] theorem joined_connect (l : Constraint) (op : Connective) (r : Constraint) :
    (connect l op r).joined = l.joined ++ r.joined := List.filterMap_append

theorem choice_connect_iff (l : Constraint) (op : Connective) (r : Constraint) :
    (connect l op r).Choice ↔ op = .or ∧ l.Choice ∧ r.Choice := by
  constructor
  · rintro ⟨⟨rfl, left, right⟩, lookups⟩
    obtain ⟨hl, hr⟩ := List.forall_mem_append.mp lookups
    exact ⟨rfl, ⟨left, hl⟩, ⟨right, hr⟩⟩
  · rintro ⟨rfl, hl, hr⟩
    exact ⟨⟨rfl, hl.connectives, hr.connectives⟩,
      List.forall_mem_append.mpr ⟨hl.lookups, hr.lookups⟩⟩

/-- A single predicate is a choice if it is looked up. -/
theorem choice_toConstraint_iff (p : Predicate) :
    p.toConstraint.Choice ↔ p.isLookup = true := by
  have single : p.toConstraint.operands = [p.toConstraint] ∧
      p.toConstraint.predicate? = some p ∧ p.toConstraint.Only .or := by
    obtain ⟨a, guard⟩ := p
    cases guard <;> exact ⟨rfl, rfl, trivial⟩
  obtain ⟨operands, predicate, only⟩ := single
  constructor
  · rintro ⟨-, lookups⟩
    obtain ⟨q, hq, lookup⟩ := lookups p.toConstraint (operands ▸ List.mem_singleton_self _)
    cases predicate.symm.trans hq
    exact lookup
  · intro lookup
    refine ⟨only, fun o ho => ⟨p, ?_, lookup⟩⟩
    rw [operands] at ho
    rw [List.mem_singleton.mp ho, predicate]

theorem joined_toConstraint (p : Predicate) : p.toConstraint.joined = [p] := by
  obtain ⟨a, guard⟩ := p
  cases guard <;> rfl

/-- The trees of disjunctions are the choices, and their leaves what is joined. -/
theorem disjoins_iff : c.Disjoins ps ↔ c.Choice ∧ ps = c.joined := by
  constructor
  · intro tree
    induction tree with
    | leaf p lookup => exact ⟨(choice_toConstraint_iff p).mpr lookup, (joined_toConstraint p).symm⟩
    | or _ _ ihl ihr =>
      obtain ⟨hl, rfl⟩ := ihl
      obtain ⟨hr, rfl⟩ := ihr
      exact ⟨(choice_connect_iff _ _ _).mpr ⟨rfl, hl, hr⟩, (joined_connect _ _ _).symm⟩
  · rintro ⟨choice, rfl⟩
    induction c with
    | connect l op r ihl ihr =>
      obtain ⟨rfl, hl, hr⟩ := (choice_connect_iff l op r).mp choice
      rw [joined_connect]
      exact .or (ihl hl) (ihr hr)
    | atom a =>
      exact .leaf ⟨a, none⟩ ((choice_toConstraint_iff ⟨a, none⟩).mp choice)
    | guarded a g _ =>
      exact .leaf ⟨a, some g⟩ ((choice_toConstraint_iff ⟨a, some g⟩).mp choice)
    | _ =>
      obtain ⟨p, hp, -⟩ := choice.lookups _ (List.mem_singleton_self _)
      cases hp

/-- **A constraint offers alternatives exactly if it is a choice.** For every tree the worklist
ends. It leaves alternatives if all connectives are disjunctions and all they join are looked-up
predicates, and nothing otherwise. The members are these predicates from left to right, each where
it occurs first, up to what methods bind their results to; so two trees offer equal alternatives if
they join the same predicates. -/
theorem alternatives?_iff_choice (c : Constraint) :
    (c.alternatives?.isSome = true ↔ c.Choice) ∧
      (∀ a, c.alternatives? = some a →
        a.members = distinctBy Predicate.forgetResults c.joined) ∧
      ∀ (d : Constraint) (a b : Alternatives), c.alternatives? = some a →
        d.alternatives? = some b → (a.same b = true ↔ SamePredicates c.joined d.joined) := by
  have offers (c : Constraint) (a : Alternatives) :
      c.alternatives? = some a ↔ c.Choice ∧ a = Alternatives.ofList c.joined := by
    simp only [alternatives?_eq, Option.map_eq_some_iff, disjuncts?_eq_some_iff, disjoins_iff]
    constructor
    · rintro ⟨_, ⟨choice, rfl⟩, rfl⟩
      exact ⟨choice, rfl⟩
    · rintro ⟨choice, rfl⟩
      exact ⟨_, ⟨choice, rfl⟩, rfl⟩
  refine ⟨?_, fun a h => ?_, fun d a b ha hb => ?_⟩
  · rw [Option.isSome_iff_exists]
    constructor
    · rintro ⟨a, h⟩
      exact ((offers c a).mp h).1
    · intro choice
      exact ⟨_, (offers c _).mpr ⟨choice, rfl⟩⟩
  · rw [((offers c a).mp h).2]
    rfl
  · rw [((offers c a).mp ha).2, ((offers d b).mp hb).2, Alternatives.same_ofList_iff]

/-- Of the four leaves the third is the first one again, with a result. Nested to the right, without
it and with the other leaves in reverse, they are the same alternatives. -/
theorem alternatives?_iff_choice_vector :
    let exposed := (Predicate.plain "exposed" [.var (.whole "key" "Key")]).negate
    let prepared : Predicate := .plain "prepared" [.var (.whole "iv" "IV")]
    let generated := Rule.generatedIfInit .unnamed
    let reversed : Constraint :=
      .connect exposed.toConstraint .or
        (.connect prepared.toConstraint .or generated.toConstraint)
    let a : Alternatives := ⟨[generated, prepared, exposed]⟩
    let b : Alternatives := ⟨[exposed, prepared, generated]⟩
    Rule.vectorChoice.alternatives? = some a ∧ reversed.alternatives? = some b ∧
      Rule.vectorChoice.Choice ∧
      a.members = distinctBy Predicate.forgetResults Rule.vectorChoice.joined ∧
      a.same b = true := by
  intro exposed prepared generated reversed a b
  have offers : Rule.vectorChoice.alternatives? = some a := by decide +kernel
  have offers' : reversed.alternatives? = some b := by decide +kernel
  have same : SamePredicates Rule.vectorChoice.joined reversed.joined :=
    Alternatives.same_ofList_iff.mp (by decide +kernel)
  obtain ⟨choice, members, equal⟩ := alternatives?_iff_choice Rule.vectorChoice
  exact ⟨offers, offers', choice.mp (by rw [offers]; rfl), members a offers,
    (equal reversed a b offers offers').mpr same⟩

end Constraint

end Misuse
