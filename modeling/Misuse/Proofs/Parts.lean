import Mathlib.Data.List.Basic
import Misuse.Partition

/-!
# The parts of a partition

Who is in each part, told constraint by constraint (`mem_direct_iff`, `mem_required_iff`,
`mem_pending_iff`): only constraints that are judged, waiting until they are ready, and then required
or direct by their own form. Each part has the order of the indices.
-/

namespace Misuse

/-- Picking some of the items, each by its image, leaves the images in order. -/
theorem filterMap_sublist_map {α β : Type} {f : α → Option β} {g : α → β}
    (h : ∀ a b, f a = some b → b = g a) (s : List α) : (s.filterMap f).Sublist (s.map g) := by
  induction s with
  | nil => exact .slnil
  | cons a s ih =>
    cases hf : f a with
    | none =>
      rw [List.filterMap_cons_none hf]
      exact ih.cons (g a)
    | some b =>
      obtain rfl := h a b hf
      rw [List.filterMap_cons_some hf]
      exact ih.cons_cons (g a)

theorem Rule.mem_constraintIndices {r : Rule} {i : Nat} {c : Constraint}
    (hc : r.constraints[i]? = some c) : i ∈ r.constraintIndices :=
  List.mem_range.mpr (List.getElem?_eq_some_iff.mp hc).1

namespace Policy

variable {policy : Policy} {r : Rule} {view : View} {indices : List Nat} {i : Nat} {c : Constraint}
  {q : Requirement}

/-! ## Places -/

theorem place_eq_direct_iff : policy.place view c = .direct ↔
    policy.isReady view c = true ∧ Requirement.ofConstraint? c = none := by
  unfold place
  cases policy.isReady view c <;> cases Requirement.ofConstraint? c <;> simp

theorem place_eq_required_iff : policy.place view c = .required q ↔
    policy.isReady view c = true ∧ Requirement.ofConstraint? c = some q := by
  unfold place
  cases policy.isReady view c <;> cases Requirement.ofConstraint? c <;> simp

theorem place_eq_pending_iff : policy.place view c = .pending ↔
    policy.isReady view c = false := by
  unfold place
  cases policy.isReady view c <;> cases Requirement.ofConstraint? c <;> simp

/-- What is placed is a constraint of the rule, and no declared exception. -/
theorem mem_placements_iff {p : Placement} :
    (i, p) ∈ policy.placements r view indices ↔
      i ∈ indices ∧ ∃ c, r.constraints[i]? = some c ∧ c.isThrows = false ∧
        policy.place view c = p := by
  unfold placements
  rw [List.mem_filterMap]
  constructor
  · rintro ⟨j, hj, hp⟩
    cases hc : r.constraints[j]? with
    | none => simp [hc] at hp
    | some c =>
      simp only [hc, Option.ite_none_left_eq_some, Option.some.injEq, Prod.mk.injEq] at hp
      obtain ⟨hthrows, rfl, hplace⟩ := hp
      exact ⟨hj, c, hc, Bool.eq_false_iff.mpr hthrows, hplace⟩
  · rintro ⟨hi, c, hc, hthrows, rfl⟩
    exact ⟨i, hi, by simp [hc, hthrows]⟩

/-! ## Who is where -/

theorem mem_direct_iff : i ∈ (policy.partition r view indices).direct ↔
    i ∈ indices ∧ ∃ c, r.constraints[i]? = some c ∧ c.isThrows = false ∧
      policy.isReady view c = true ∧ Requirement.ofConstraint? c = none := by
  have placed : i ∈ (policy.partition r view indices).direct ↔
      (i, .direct) ∈ policy.placements r view indices := by
    simp [partition]
  simp only [placed, mem_placements_iff, place_eq_direct_iff]

theorem mem_required_iff {x : Required} : x ∈ (policy.partition r view indices).required ↔
    (x.index ∈ indices ∧ ∃ c, r.constraints[x.index]? = some c ∧ c.isThrows = false ∧
      policy.isReady view c = true ∧ Requirement.ofConstraint? c = some x.requirement) ∧
    x.anchor = policy.anchor? view x.requirement := by
  have placed : x ∈ (policy.partition r view indices).required ↔
      (x.index, .required x.requirement) ∈ policy.placements r view indices ∧
        x.anchor = policy.anchor? view x.requirement := by
    simp only [partition, List.mem_filterMap, Prod.exists]
    constructor
    · rintro ⟨i, p, hp, hx⟩
      cases p with
      | required q =>
        cases hx
        exact ⟨hp, rfl⟩
      | _ => cases hx
    · rintro ⟨hp, ha⟩
      obtain ⟨q, i, anchor⟩ := x
      obtain rfl : anchor = policy.anchor? view q := ha
      exact ⟨i, .required q, hp, rfl⟩
  simp only [placed, mem_placements_iff, place_eq_required_iff]

theorem mem_pending_iff : i ∈ (policy.partition r view indices).pending ↔
    i ∈ indices ∧ ∃ c, r.constraints[i]? = some c ∧ c.isThrows = false ∧
      policy.isReady view c = false := by
  have placed : i ∈ (policy.partition r view indices).pending ↔
      (i, .pending) ∈ policy.placements r view indices := by
    simp [partition]
  simp only [placed, mem_placements_iff, place_eq_pending_iff]

theorem mem_required_of_ready (hi : i ∈ indices) (hc : r.constraints[i]? = some c)
    (judged : c.isThrows = false) (ready : policy.isReady view c = true)
    (form : Requirement.ofConstraint? c = some q) :
    ⟨q, i, policy.anchor? view q⟩ ∈ (policy.partition r view indices).required :=
  mem_required_iff.mpr ⟨⟨hi, c, hc, judged, ready, form⟩, rfl⟩

theorem mem_required_index_iff :
    i ∈ (policy.partition r view indices).required.map Required.index ↔
      i ∈ indices ∧ ∃ c, r.constraints[i]? = some c ∧ c.isThrows = false ∧
        policy.isReady view c = true ∧ ∃ q, Requirement.ofConstraint? c = some q := by
  rw [List.mem_map]
  constructor
  · rintro ⟨x, hx, rfl⟩
    obtain ⟨⟨hi, c, hc, judged, ready, form⟩, -⟩ := mem_required_iff.mp hx
    exact ⟨hi, c, hc, judged, ready, _, form⟩
  · rintro ⟨hi, c, hc, judged, ready, q, form⟩
    exact ⟨_, mem_required_of_ready hi hc judged ready form, rfl⟩

/-- A requirement in a partition comes from a constraint of the rule. -/
theorem exists_of_mem_required {x : Required}
    (hx : x ∈ (policy.partition r view indices).required) :
    ∃ c, r.constraints[x.index]? = some c ∧ Requirement.ofConstraint? c = some x.requirement := by
  obtain ⟨⟨-, c, hc, -, -, form⟩, -⟩ := mem_required_iff.mp hx
  exact ⟨c, hc, form⟩

/-! ## The parts as lists -/

variable (policy r view indices)

theorem placements_sublist :
    ((policy.placements r view indices).map Prod.fst).Sublist indices := by
  induction indices with
  | nil => exact .slnil
  | cons i indices ih =>
    unfold placements at ih ⊢
    rw [List.filterMap_cons]
    cases r.constraints[i]? with
    | none => exact ih.cons i
    | some c =>
      cases ht : c.isThrows with
      | true => simpa [ht] using ih.cons i
      | false => simpa [ht] using ih.cons_cons i

theorem direct_sublist : (policy.partition r view indices).direct.Sublist indices := by
  refine (filterMap_sublist_map ?_ _).trans (policy.placements_sublist r view indices)
  rintro ⟨j, place⟩ i picked
  simp only [Option.ite_none_right_eq_some, Option.some.injEq] at picked
  exact picked.2.symm

theorem required_sublist :
    ((policy.partition r view indices).required.map Required.index).Sublist indices := by
  unfold partition
  rw [List.map_filterMap]
  refine (filterMap_sublist_map ?_ _).trans (policy.placements_sublist r view indices)
  rintro ⟨j, place⟩ i picked
  cases place <;> cases picked
  rfl

theorem pending_sublist : (policy.partition r view indices).pending.Sublist indices := by
  refine (filterMap_sublist_map ?_ _).trans (policy.placements_sublist r view indices)
  rintro ⟨j, place⟩ i picked
  simp only [Option.ite_none_right_eq_some, Option.some.injEq] at picked
  exact picked.2.symm

end Policy

end Misuse
