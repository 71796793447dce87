import Mathlib.Data.List.Induction
import Mathlib.Data.List.Nodup
import Misuse.Proofs.Acceptance
import Misuse.Proofs.Isolation
import Misuse.Proofs.Overlaps
import Misuse.Rulebook.Indexed

/-!
# Rules that stand

A rulebook is changed by adding rules and by checking the accepted ones once more. Whatever the
changes are, the types of its rules are distinct and their positions exact (`exact_edited`), so a
search by position finds what a search by type does (`Exact.get?_eq`). What it finds for a type is
the rule that stands: the last one that was accepted, unless a later check has rejected it
(`get?_edited_iff`). What changes keep and what each of them does is `standing_of_edits`.
-/

namespace Misuse.Rulebook

/-! ## Rules with distinct types -/

/-- The types of the rules, in order. -/
def types (b : Rulebook) : List String := b.rules.map Rule.className

/-- The only rule for a type is the one that is found. -/
theorem get?_eq_some_iff {b : Rulebook} (h : b.types.Nodup) {className : String} {rule : Rule} :
    b.get? className = some rule ↔ rule ∈ b.rules ∧ rule.className = className := by
  unfold get?
  constructor
  · intro found
    exact ⟨List.mem_of_find?_eq_some found, by simpa using List.find?_some found⟩
  · rintro ⟨mem, rfl⟩
    cases found : b.rules.find? fun r => r.className == rule.className with
    | none => exact absurd (beq_self_eq_true _) (List.find?_eq_none.mp found rule mem)
    | some other =>
      have same : other.className = rule.className := by simpa using List.find?_some found
      rw [List.inj_on_of_nodup_map h (List.mem_of_find?_eq_some found) mem same]

/-- Of the rules that a check leaves, the one for a type is the one that was there. -/
theorem get?_revalidate {b : Rulebook} (h : b.types.Nodup) (strict : Bool) (className : String) :
    (b.revalidate strict).get? className =
      (b.get? className).filter fun r => (defect? strict r).isNone := by
  have distinct : (b.revalidate strict).types.Nodup := h.sublist (List.filter_sublist.map _)
  refine Option.ext fun rule => ?_
  rw [get?_eq_some_iff distinct, Option.filter_eq_some_iff, get?_eq_some_iff h, revalidate,
    List.mem_filter]
  exact and_right_comm

/-- A rule takes the place of the one for its type. -/
theorem replaceIn_of_getElem? {rule : Rule} {rules : List Rule} {i : Nat}
    (h : (rules.map Rule.className).Nodup)
    (hi : (rules.map Rule.className)[i]? = some rule.className) :
    replaceIn rule rules = rules.set i rule := by
  induction rules generalizing i with
  | nil => cases hi
  | cons r rules ih =>
    obtain ⟨fresh, h⟩ := List.nodup_cons.mp h
    cases i with
    | zero =>
      have same : r.className = rule.className := by simpa using hi
      simp [replaceIn, same]
    | succ i =>
      have later : (rules.map Rule.className)[i]? = some rule.className := by simpa using hi
      have other : r.className ≠ rule.className := fun same =>
        fresh (same ▸ List.mem_of_getElem? later)
      simp [replaceIn, other, ih h later]

theorem replaceIn_of_notMem {rule : Rule} {rules : List Rule}
    (h : rule.className ∉ rules.map Rule.className) :
    replaceIn rule rules = rules ++ [rule] := by
  induction rules with
  | nil => rfl
  | cons r rules ih =>
    obtain ⟨other, h⟩ :
        rule.className ≠ r.className ∧ rule.className ∉ rules.map Rule.className := by
      simpa using h
    simp [replaceIn, other.symm, ih h]

/-- Rules with distinct types are entered with their places. -/
theorem exact_ofRules {rules : List Rule} (h : (rules.map Rule.className).Nodup) :
    (Positions.ofRules rules).Exact (rules.map Rule.className) := by
  induction rules using List.reverseRecOn with
  | nil => exact Positions.exact_nil
  | append_singleton rules rule ih =>
    have entered : Positions.ofRules (rules ++ [rule]) =
        (Positions.ofRules rules).enter rule.className (rules.map Rule.className).length := by
      simp [Positions.ofRules, List.zipIdx_append]
    rw [List.map_append, List.nodup_append] at h
    obtain ⟨distinct, -, apart⟩ := h
    rw [entered, List.map_append]
    exact (ih distinct).enter fun known => apart _ known _ (List.mem_singleton_self _) rfl

namespace Indexed

/-! ## Exact positions -/

/-- No type has two rules, and the position of each is entered. -/
structure Exact (b : Indexed) : Prop where
  distinct : b.types.Nodup
  positions : b.positions.Exact b.types

theorem exact_empty : empty.Exact := ⟨List.nodup_nil, Positions.exact_nil⟩

namespace Exact

variable {b : Indexed} (h : b.Exact)
include h

/-- A search by position finds what a search by type does. -/
theorem get?_eq (className : String) : b.get? className = b.toRulebook.get? className := by
  refine Option.ext fun rule => ?_
  rw [get?_eq_some_iff h.distinct, get?, Option.bind_eq_some_iff]
  constructor
  · rintro ⟨i, place, found⟩
    have named : b.types[i]? = some className := (h.positions className i).mp place
    rw [types, List.getElem?_map, found] at named
    exact ⟨List.mem_of_getElem? found, Option.some.inj named⟩
  · rintro ⟨mem, rfl⟩
    obtain ⟨i, found⟩ := List.mem_iff_getElem?.mp mem
    refine ⟨i, (h.positions _ i).mpr ?_, found⟩
    rw [types, List.getElem?_map, found]
    rfl

/-- A rule is added as it is without positions, and is the answer unless it is rejected. -/
theorem insert_eq (strict : Bool) (rule : Rule) :
    (b.insert strict rule).1.toRulebook = b.toRulebook.insert strict rule ∧
      (b.insert strict rule).2 = (rule.check strict).map fun _ => rule := by
  unfold insert Rulebook.insert
  cases rule.check strict with
  | error defect => exact ⟨rfl, rfl⟩
  | ok _ =>
    cases place : b.positions.get? rule.className with
    | some i =>
      have named := (h.positions _ i).mp place
      rw [replaceIn_of_getElem? h.distinct named]
      exact ⟨rfl, rfl⟩
    | none =>
      have fresh := (h.positions.get?_eq_none_iff _).mp place
      rw [replaceIn_of_notMem fresh]
      exact ⟨rfl, rfl⟩

theorem insert (strict : Bool) (rule : Rule) : (b.insert strict rule).1.Exact := by
  unfold Indexed.insert
  cases rule.check strict with
  | error defect => exact ⟨h.distinct, h.positions⟩
  | ok _ =>
    cases place : b.positions.get? rule.className with
    | some i =>
      -- the rule that is replaced has the same type
      have kept : (b.rules.set i rule).map Rule.className = b.types := by
        have named := (h.positions _ i).mp place
        obtain ⟨hi, named⟩ := List.getElem?_eq_some_iff.mp named
        rw [List.map_set, ← named]
        exact List.set_getElem_self hi
      constructor
      · show ((b.rules.set i rule).map Rule.className).Nodup
        rw [kept]
        exact h.distinct
      · show b.positions.Exact ((b.rules.set i rule).map Rule.className)
        rw [kept]
        exact h.positions
    | none =>
      have fresh := (h.positions.get?_eq_none_iff _).mp place
      have added : (b.rules ++ [rule]).map Rule.className = b.types ++ [rule.className] :=
        List.map_append
      constructor
      · show ((b.rules ++ [rule]).map Rule.className).Nodup
        rw [added, ← List.concat_eq_append]
        exact h.distinct.concat fresh
      · show (b.positions.enter rule.className b.rules.length).Exact
          ((b.rules ++ [rule]).map Rule.className)
        have entered := h.positions.enter fresh
        rw [types, List.length_map] at entered
        rw [added]
        exact entered

theorem revalidate (strict : Bool) : (b.revalidate strict).1.Exact := by
  have distinct : (b.toRulebook.revalidate strict).types.Nodup :=
    h.distinct.sublist (List.filter_sublist.map _)
  exact ⟨distinct, exact_ofRules distinct⟩

/-- Another rulebook is taken over as it is without positions. -/
theorem absorb (strict : Bool) (other : Rulebook) :
    (b.absorb strict other).Exact ∧
      (b.absorb strict other).toRulebook = b.toRulebook.absorb strict other := by
  obtain ⟨exact, same⟩ : (other.rules.foldl (fun b r => (b.insert strict r).1) b).Exact ∧
      (other.rules.foldl (fun b r => (b.insert strict r).1) b).toRulebook =
        other.rules.foldl (fun b r => b.insert strict r) b.toRulebook := by
    induction other.rules generalizing b with
    | nil => exact ⟨h, rfl⟩
    | cons rule rules ih =>
      rw [List.foldl_cons, List.foldl_cons, ← (h.insert_eq strict rule).1]
      exact ih (h.insert strict rule)
  refine ⟨⟨exact.distinct, exact.positions⟩, ?_⟩
  simp only [Indexed.absorb, Rulebook.absorb, ← same]

end Exact

end Indexed

/-! ## Changes -/

/-- A change of a rulebook. -/
inductive Edit where
  | insert (strict : Bool) (rule : Rule)
  | revalidate (strict : Bool)
  deriving DecidableEq, Repr

/-- The change neither replaces an accepted rule nor rejects it. -/
def Edit.Spares (rule : Rule) : Edit → Prop
  | .insert strict other => other.className = rule.className → other.check strict ≠ .ok ()
  | .revalidate strict => rule.check strict = .ok ()

/-- The rule was accepted, and has been neither replaced nor rejected since. -/
def Standing (edits : List Edit) (rule : Rule) : Prop :=
  ∃ before strict after, edits = before ++ .insert strict rule :: after ∧
    rule.check strict = .ok () ∧ ∀ e ∈ after, e.Spares rule

theorem standing_concat_iff (edits : List Edit) (e : Edit) (rule : Rule) :
    Standing (edits ++ [e]) rule ↔
      (∃ strict, e = .insert strict rule ∧ rule.check strict = .ok ()) ∨
        Standing edits rule ∧ e.Spares rule := by
  constructor
  · rintro ⟨before, strict, after, split, accepted, spared⟩
    rcases List.eq_nil_or_concat after with rfl | ⟨after, last, rfl⟩
    · obtain ⟨-, same⟩ := List.append_inj' split rfl
      exact .inl ⟨strict, List.singleton_inj.mp same, accepted⟩
    · rw [List.concat_eq_append, ← List.cons_append, ← List.append_assoc] at split
      obtain ⟨rfl, same⟩ := List.append_inj' split rfl
      obtain rfl : e = last := List.singleton_inj.mp same
      rw [List.concat_eq_append, List.forall_mem_append, List.forall_mem_singleton] at spared
      exact .inr ⟨⟨before, strict, after, rfl, accepted, spared.1⟩, spared.2⟩
  · rintro (⟨strict, rfl, accepted⟩ | ⟨⟨before, strict, after, rfl, accepted, spared⟩, last⟩)
    · exact ⟨edits, strict, [], rfl, accepted, nofun⟩
    · refine ⟨before, strict, after ++ [e], by simp, accepted, ?_⟩
      rw [List.forall_mem_append, List.forall_mem_singleton]
      exact ⟨spared, last⟩

/-- A rulebook without positions is changed so. -/
def edit (b : Rulebook) : Edit → Rulebook
  | .insert strict rule => b.insert strict rule
  | .revalidate strict => b.revalidate strict

theorem Accepted.edit {b : Rulebook} (h : b.Accepted) (e : Edit) : (b.edit e).Accepted := by
  cases e with
  | insert strict rule => exact h.insert strict rule
  | revalidate strict => exact h.revalidate strict

/-- After a change, the rule for a type is the one that was added, or the one before if the change
spares it. -/
theorem get?_edit_iff {b : Rulebook} (h : b.types.Nodup) (e : Edit) {className : String}
    {rule : Rule} :
    (b.edit e).get? className = some rule ↔
      (∃ strict, e = .insert strict rule ∧ rule.check strict = .ok ()) ∧
          rule.className = className ∨
        b.get? className = some rule ∧ e.Spares rule := by
  cases e with
  | insert strict other =>
    simp only [edit, get?_insert, defect?_eq_none_iff, Edit.Spares, Edit.insert.injEq]
    split
    next added =>
      obtain ⟨named, accepted⟩ := added
      rw [Option.some.injEq]
      constructor
      · rintro rfl
        exact .inl ⟨⟨strict, ⟨rfl, rfl⟩, accepted⟩, named⟩
      · rintro (⟨⟨_, ⟨-, same⟩, -⟩, -⟩ | ⟨found, spared⟩)
        · exact same
        · have same : rule.className = className := ((get?_eq_some_iff h).mp found).2
          exact absurd accepted (spared (named.trans same.symm))
    next kept =>
      constructor
      · intro found
        have same : rule.className = className := ((get?_eq_some_iff h).mp found).2
        exact .inr ⟨found, fun named accepted => kept ⟨named.trans same, accepted⟩⟩
      · rintro (⟨⟨_, ⟨rfl, rfl⟩, accepted⟩, named⟩ | ⟨found, -⟩)
        · exact absurd ⟨named, accepted⟩ kept
        · exact found
  | revalidate strict =>
    rw [edit, get?_revalidate h, Option.filter_eq_some_iff, Option.isNone_iff_eq_none,
      defect?_eq_none_iff]
    simp [Edit.Spares]

namespace Indexed

def edit (b : Indexed) : Edit → Indexed
  | .insert strict rule => (b.insert strict rule).1
  | .revalidate strict => (b.revalidate strict).1

/-- The rulebook that changes lead to. -/
def edited (edits : List Edit) : Indexed := edits.foldl edit empty

theorem edited_concat (edits : List Edit) (e : Edit) :
    edited (edits ++ [e]) = (edited edits).edit e :=
  List.foldl_concat ..

theorem Exact.edit {b : Indexed} (h : b.Exact) (e : Edit) :
    (b.edit e).Exact ∧ (b.edit e).toRulebook = b.toRulebook.edit e := by
  cases e with
  | insert strict rule => exact ⟨h.insert strict rule, (h.insert_eq strict rule).1⟩
  | revalidate strict => exact ⟨h.revalidate strict, rfl⟩

/-- **Positions stay exact.** -/
theorem exact_edited (edits : List Edit) : (edited edits).Exact := by
  induction edits using List.reverseRecOn with
  | nil => exact exact_empty
  | append_singleton edits e ih =>
    rw [edited_concat]
    exact (ih.edit e).1

theorem accepted_edited (edits : List Edit) : (edited edits).toRulebook.Accepted := by
  induction edits using List.reverseRecOn with
  | nil => exact accepted_empty
  | append_singleton edits e ih =>
    rw [edited_concat, ((exact_edited edits).edit e).2]
    exact ih.edit e

/-- **The rule for a type is the one that stands.** -/
theorem get?_edited_iff (edits : List Edit) (className : String) (rule : Rule) :
    (edited edits).get? className = some rule ↔
      rule.className = className ∧ Standing edits rule := by
  induction edits using List.reverseRecOn with
  | nil =>
    refine iff_of_false nofun ?_
    rintro ⟨-, before, strict, after, split, -⟩
    cases before <;> cases split
  | append_singleton edits e ih =>
    have positions := exact_edited edits
    obtain ⟨changed, same⟩ := positions.edit e
    rw [edited_concat, changed.get?_eq, same, get?_edit_iff positions.distinct,
      ← positions.get?_eq, ih, standing_concat_iff]
    exact (or_congr and_comm and_assoc).trans and_or_left.symm

/-- A check leaves the rules that pass it, and tells how many do not. A repetition of it finds
nothing more. -/
theorem revalidate_eq (b : Indexed) (strict : Bool) :
    (b.revalidate strict).2 = (b.rules.filterMap (defect? strict)).length ∧
      (b.revalidate strict).1.revalidate strict = ((b.revalidate strict).1, 0) := by
  have passing : b.rules.length =
      (b.rules.filter fun r => (defect? strict r).isNone).length +
        (b.rules.filterMap (defect? strict)).length := by
    rw [List.length_filterMap_eq_countP, ← List.countP_eq_length_filter,
      List.length_eq_countP_add_countP fun r => (defect? strict r).isNone]
    congr 1
    exact List.countP_congr fun r _ => by cases defect? strict r <;> simp
  have again : (b.toRulebook.revalidate strict).revalidate strict =
      b.toRulebook.revalidate strict := by
    simp [Rulebook.revalidate, List.filterMap_filter]
  constructor
  · simp only [Indexed.revalidate, Rulebook.revalidate]
    omega
  · simp only [Indexed.revalidate, again, Nat.sub_self]

theorem toRulebook_edited (edits : List Edit) :
    (edited edits).toRulebook = edits.foldl Rulebook.edit .empty := by
  induction edits using List.reverseRecOn with
  | nil => rfl
  | append_singleton edits e ih =>
    rw [edited_concat, ((exact_edited edits).edit e).2, ih, List.foldl_concat]

/-- **What a rulebook keeps through every change.** Its rules have distinct types and have passed a
check, they are those of a rulebook without positions, and the positions are theirs. What is found
for a type is the rule for it, and that is the one that stands. A rule that is rejected adds its
defect and changes nothing else. A further check leaves the rules that pass it, in order, adds a
defect for each of the others, tells how many these are, and finds no more when it is repeated. -/
theorem standing_of_edits (edits : List Edit) :
    let b := edited edits
    (b.rules.map Rule.className).Nodup ∧
      b.toRulebook.Accepted ∧
      b.toRulebook = edits.foldl Rulebook.edit .empty ∧
      (∀ className i, b.positions.get? className = some i ↔
        (b.rules.map Rule.className)[i]? = some className) ∧
      (∀ className rule,
        (b.get? className = some rule ↔ rule ∈ b.rules ∧ rule.className = className) ∧
        (b.get? className = some rule ↔ rule.className = className ∧ Standing edits rule)) ∧
      (∀ strict rule,
        (b.insert strict rule).1.toRulebook = b.toRulebook.insert strict rule ∧
        (b.insert strict rule).2 = (rule.check strict).map fun _ => rule) ∧
      (∀ strict rule defect, rule.check strict = .error defect →
        (b.insert strict rule).1 = { b with rejected := b.rejected ++ [defect] }) ∧
      ∀ strict,
        let after := (b.revalidate strict).1
        after.rules = b.rules.filter (fun r => (defect? strict r).isNone) ∧
        after.rejected = b.rejected ++ b.rules.filterMap (defect? strict) ∧
        (b.revalidate strict).2 = (b.rules.filterMap (defect? strict)).length ∧
        after.revalidate strict = (after, 0) := by
  intro b
  have positions : b.Exact := exact_edited edits
  refine ⟨positions.distinct, accepted_edited edits, toRulebook_edited edits, positions.positions,
    fun className rule => ⟨?_, get?_edited_iff edits className rule⟩,
    fun strict rule => positions.insert_eq strict rule, fun strict rule defect h => ?_,
    fun strict => ⟨rfl, rfl, b.revalidate_eq strict⟩⟩
  · rw [positions.get?_eq, get?_eq_some_iff positions.distinct]
  · simp only [Indexed.insert, h]

/-! ## A fork and two ciphers -/

/-- A wrapper that leads one method to two states, and two ciphers. Labels are checked at last. -/
def forkAndCiphers : List Edit :=
  [.insert false { Rule.forkedCipher Rule.initKey Rule.initKey with className := "Wrapper" },
   .insert false (Rule.choosyCipher 1), .insert false (Rule.choosyCipher 2), .revalidate true]

/-- The second cipher has taken the place of the first, and moves up where the wrapper was. -/
theorem standing_of_edits_fork :
    let b := edited forkAndCiphers
    b.positions = [("Cipher", 0)] ∧ b.rejected = [.overlappingLabels "Wrapper" "new" "init"] ∧
      b.get? "Wrapper" = none ∧ b.get? "Cipher" = some (Rule.choosyCipher 2) ∧
      Standing forkAndCiphers (Rule.choosyCipher 2) ∧
      ¬ Standing forkAndCiphers (Rule.choosyCipher 1) := by
  intro b
  have stands := (standing_of_edits forkAndCiphers).2.2.2.2.1 "Cipher"
  have found : b.get? "Cipher" = some (Rule.choosyCipher 2) := by decide +kernel
  refine ⟨by decide +kernel, by decide +kernel, by decide +kernel, found,
    ((stands _).2.mp found).2, fun first => ?_⟩
  have named : (Rule.choosyCipher 1).className = "Cipher" := rfl
  have both := ((stands _).2.mpr ⟨named, first⟩).symm.trans found
  exact absurd (Option.some.inj both) (by decide +kernel)

end Indexed

end Misuse.Rulebook
