import Misuse.Report
import Misuse.Proofs.Blocks

/-!
# The records of a report

What `extend` adds to a report: of the given records, the first of every key that is not
present yet (`records_extend`). Keys stay distinct (`Report.distinct_extend`), and a part of
a report that is told by its keys grows by the same part of what is added
(`filter_records_extend`).
-/

namespace Misuse.Report

theorem has_eq_true_iff (r : Report) (v : Violation) :
    r.has v = true ↔ ∃ w ∈ r.records, w.key = v.key := by
  simp [has, List.any_eq_true]

theorem has_congr (r : Report) {v w : Violation} (h : v.key = w.key) : r.has v = r.has w := by
  simp [has, h]

theorem extend_append (r : Report) (vs ws : List Violation) :
    r.extend (vs ++ ws) = (r.extend vs).extend ws := List.foldl_append ..

/-- A report grows by the first record of every new key. -/
theorem records_extend (r : Report) (vs : List Violation) :
    (r.extend vs).records =
      r.records ++ (distinctBy Violation.key vs).filter fun v => !r.has v := by
  induction vs generalizing r with
  | nil => simp [extend, distinctBy]
  | cons v vs ih =>
    change ((r.record v).extend vs).records = _
    rw [ih]
    cases hv : r.has v with
    | true =>
      have present : ∀ w ∈ distinctBy Violation.key vs,
          (!r.has w) = (!r.has w && decide (w.key ≠ v.key)) := by
        intro w _
        by_cases hk : w.key = v.key
        · simp [r.has_congr hk, hv]
        · simp [hk]
      simp only [record, hv, ↓reduceIte, distinctBy, List.filter_cons, Bool.not_true,
        Bool.false_eq_true, List.filter_filter]
      rw [List.filter_congr present]
    | false =>
      have added : ∀ w ∈ distinctBy Violation.key vs,
          (!Report.has ⟨r.records ++ [v]⟩ w) = (!r.has w && decide (w.key ≠ v.key)) := by
        intro w _
        have : Report.has ⟨r.records ++ [v]⟩ w = (r.has w || v.key == w.key) := by simp [has]
        rw [this, Bool.not_or]
        by_cases hk : w.key = v.key
        · simp [hk]
        · simp [hk, Ne.symm hk]
      simp only [record, hv, Bool.false_eq_true, ↓reduceIte, distinctBy, List.filter_cons,
        Bool.not_false, List.filter_filter, List.append_assoc, List.singleton_append]
      rw [List.filter_congr added]

@[simp] theorem records_empty : Report.empty.records = [] := rfl

theorem records_extend_empty (vs : List Violation) :
    (Report.empty.extend vs).records = distinctBy Violation.key vs := by
  simp [records_extend, has]

theorem mem_records_extend (r : Report) (vs : List Violation) (v : Violation) :
    v ∈ (r.extend vs).records ↔
      v ∈ r.records ∨ v ∈ distinctBy Violation.key vs ∧ r.has v = false := by
  simp [records_extend]

/-- A key is present after an extension if it was before or comes with it. -/
theorem has_extend (r : Report) (vs : List Violation) (v : Violation) :
    (r.extend vs).has v = true ↔ r.has v = true ∨ ∃ w ∈ vs, w.key = v.key := by
  rw [has_eq_true_iff, has_eq_true_iff]
  constructor
  · rintro ⟨w, hw, hk⟩
    rcases (r.mem_records_extend vs w).mp hw with hw | ⟨hw, -⟩
    · exact .inl ⟨w, hw, hk⟩
    · exact .inr ⟨w, (distinctBy_sublist _ _).subset hw, hk⟩
  · rintro (⟨w, hw, hk⟩ | ⟨w, hw, hk⟩)
    · exact ⟨w, (r.mem_records_extend vs w).mpr (.inl hw), hk⟩
    · obtain ⟨w', hw', hk'⟩ := List.mem_map.mp
        ((mem_map_distinctBy Violation.key w.key vs).mpr (List.mem_map_of_mem hw))
      cases hnew : r.has w' with
      | true =>
        obtain ⟨x, hx, hkx⟩ := (r.has_eq_true_iff w').mp hnew
        exact ⟨x, (r.mem_records_extend vs x).mpr (.inl hx), hkx.trans (hk'.trans hk)⟩
      | false => exact ⟨w', (r.mem_records_extend vs w').mpr (.inr ⟨hw', hnew⟩), hk'.trans hk⟩

/-- No two records have the same key. -/
def Distinct (r : Report) : Prop := (r.records.map Violation.key).Nodup

theorem distinct_extend {r : Report} (h : r.Distinct) (vs : List Violation) :
    (r.extend vs).Distinct := by
  unfold Distinct
  rw [records_extend, List.map_append, List.nodup_append]
  refine ⟨h, (nodup_distinctBy Violation.key vs).sublist (List.filter_sublist.map _), ?_⟩
  rintro _ hk _ hk' rfl
  obtain ⟨v, hv, hkey⟩ := List.mem_map.mp hk
  obtain ⟨w, hw, rfl⟩ := List.mem_map.mp hk'
  have hnew := (List.mem_filter.mp hw).2
  rw [(r.has_eq_true_iff w).mpr ⟨v, hv, hkey⟩] at hnew
  cases hnew

/-- A part of the records that is told by their keys grows by the same part of what is
added. -/
theorem filter_records_extend {p : Violation → Bool}
    (hp : ∀ v w : Violation, v.key = w.key → p v = p w) (r : Report) (vs : List Violation) :
    (r.extend vs).records.filter p =
      (Report.extend ⟨r.records.filter p⟩ (vs.filter p)).records := by
  rw [records_extend, records_extend, List.filter_append, ← filter_distinctBy hp,
    List.filter_filter, List.filter_filter]
  congr 1
  apply List.filter_congr
  intro v _
  cases hv : p v with
  | false => simp
  | true =>
    have : r.has v = Report.has ⟨r.records.filter p⟩ v := by
      rw [Bool.eq_iff_iff, has_eq_true_iff, has_eq_true_iff]
      constructor
      · rintro ⟨w, hw, hk⟩
        exact ⟨w, List.mem_filter.mpr ⟨hw, (hp w v hk).trans hv⟩, hk⟩
      · rintro ⟨w, hw, hk⟩
        exact ⟨w, (List.mem_filter.mp hw).1, hk⟩
    simp [this]

/-- What is added bears on the records of its own kinds only. -/
theorem ofKind_extend_of_ne (r : Report) {vs : List Violation} {k : Violation.Kind}
    (h : ∀ v ∈ vs, v.kind ≠ k) : (r.extend vs).ofKind k = r.ofKind k := by
  have none : (((distinctBy Violation.key vs).filter fun v => !r.has v).filter
      fun v => v.kind == k) = [] := by
    rw [List.filter_eq_nil_iff]
    intro v hv hk
    have given : v ∈ vs := (distinctBy_sublist _ _).subset (List.mem_filter.mp hv).1
    exact h v given (beq_iff_eq.mp hk)
  rw [ofKind, records_extend, List.filter_append, none, List.append_nil, ofKind]

end Misuse.Report
