import Misuse.Proofs.Documents
import Misuse.Proofs.Records
import Misuse.Report.Indexed

/-!
# Reports written and read again

A report is read from what is written of it (`Report.read?_write`), but without the keys of its
records. Keys that are missing or are those of the records lead to the same additions: both do
what a report without keys does (`Keyed.addAll_eq`). So a report that was read again answers every
addition as the one that was written (`answers_of_reloaded`).
-/

namespace Misuse

open Json (Restores)

/-! ## Written reports -/

theorem Json.depthOfItems_le {items : List Json} {n : Nat} (h : ∀ j ∈ items, j.depth ≤ n) :
    depthOfItems items ≤ n := by
  induction items with
  | nil => exact Nat.zero_le _
  | cons j items ih =>
    obtain ⟨first, more⟩ := List.forall_mem_cons.mp h
    exact Nat.max_le.mpr ⟨first, ih more⟩

/-- A list of scalars nests once. -/
theorem Json.depth_texts (items : List String) : (texts items).depth ≤ 1 := by
  refine Nat.succ_le_succ (depthOfItems_le fun j hj => ?_)
  obtain ⟨s, -, rfl⟩ := List.mem_map.mp hj
  exact Nat.le_refl _

namespace Violation

theorem Kind.ofName?_name (k : Kind) : (Json.bareChoice? (.text k.name)).bind ofName? = some k := by
  cases k <;> rfl

/-- **A record is read from what is written of it.** -/
theorem restores (v : Violation) : Restores ofJson? v.toJson v := by
  have optional (o : Option String) : Restores (Json.option? Json.text?) (.ofOption .text o) o :=
    .option (fun _ => Json.noConfusion) fun s _ => .text s
  have texts (items : List String) : Restores (Json.list? Json.text?) (.texts items) items :=
    .list fun s _ => .text s
  refine ⟨.record ?_, ?_⟩
  · simp [Json.Plain.text, (optional _).plain, (texts _).plain]
  · rw [ofJson?, toJson, Json.fields?_record rfl (by decide)]
    simp [Kind.ofName?_name, (optional _).read, (texts _).read, Json.text?]

theorem depth_toJson (v : Violation) : v.toJson.depth ≤ 2 := by
  have optional (o : Option String) : (Json.ofOption .text o).depth = 0 := by cases o <;> rfl
  have sites := Json.depth_texts v.sites
  have expected := Json.depth_texts v.expected
  simp only [toJson, Json.depth, Json.depthOfFields, optional]
  omega

end Violation

namespace Report

theorem restores (r : Report) : Restores ofJson? r.toJson r := by
  have records := Restores.list fun v (_ : v ∈ r.records) => v.restores
  refine ⟨.record (by simp [records.plain]), ?_⟩
  rw [ofJson?, toJson, Json.fields?_record rfl (by decide)]
  simp [records.read]

/-- **A report is read from what is written of it.** -/
theorem read?_write (r : Report) : read? r.write = some r := by
  have records : (Json.ofList Violation.toJson r.records).depth ≤ 3 := by
    refine Nat.succ_le_succ (Json.depthOfItems_le fun j hj => ?_)
    obtain ⟨v, -, rfl⟩ := List.mem_map.mp hj
    exact v.depth_toJson
  have fits : r.toJson.depth ≤ Json.documentRoom := by
    simp only [toJson, Json.depth, Json.depthOfFields, Json.documentRoom]
    omega
  rw [read?, write, Json.parse?_pretty r.restores.plain fits, Option.bind_some, r.restores.read]

/-! ## Additions -/

/-- A report is not added to by records whose keys are present. -/
theorem extend_of_has {r : Report} {vs : List Violation} (h : ∀ v ∈ vs, r.has v = true) :
    r.extend vs = r := by
  induction vs with
  | nil => rfl
  | cons v vs ih =>
    obtain ⟨present, h⟩ := List.forall_mem_cons.mp h
    have same : r.record v = r := by rw [record, if_pos present]
    rw [extend, List.foldl_cons, same]
    exact ih h

theorem merge_self (r : Report) : r.merge r = r :=
  extend_of_has fun v hv => (r.has_eq_true_iff v).mpr ⟨v, hv, rfl⟩

theorem size_record (r : Report) (v : Violation) :
    (r.record v).size = r.size + if r.has v then 0 else 1 := by
  unfold record size
  split <;> simp

/-- A way to add to a report. -/
inductive Addition where
  | record (v : Violation)
  | extend (vs : List Violation)
  | merge (other : Indexed)

/-- Whether the record is added, or how many are. -/
inductive Answer where
  | added (yes : Bool)
  | count (n : Nat)
  deriving DecidableEq, Repr

def add (r : Report) : Addition → Report × Answer
  | .record v => (r.record v, .added !r.has v)
  | .extend vs => (r.extend vs, .count ((r.extend vs).size - r.size))
  | .merge other => (r.merge other.toReport, .count ((r.merge other.toReport).size - r.size))

def addAll (r : Report) : List Addition → Report × List Answer
  | [] => (r, [])
  | a :: additions =>
    let (r, answer) := r.add a
    let (r, answers) := r.addAll additions
    (r, answer :: answers)

theorem distinct_empty : Report.empty.Distinct := List.nodup_nil

theorem Distinct.add {r : Report} (h : r.Distinct) (a : Addition) : (r.add a).1.Distinct := by
  cases a with
  | record v => exact distinct_extend h [v]
  | extend vs => exact distinct_extend h vs
  | merge other => exact distinct_extend h other.records

theorem Distinct.addAll {r : Report} (h : r.Distinct) (additions : List Addition) :
    (r.addAll additions).1.Distinct := by
  induction additions generalizing r with
  | nil => exact h
  | cons a additions ih => exact ih (h.add a)

namespace Indexed

def add (r : Indexed) : Addition → Indexed × Answer
  | .record v => ((r.record v).1, .added (r.record v).2)
  | .extend vs => ((r.extend vs).1, .count (r.extend vs).2)
  | .merge other => ((r.merge other).1, .count (r.merge other).2)

def addAll (r : Indexed) : List Addition → Indexed × List Answer
  | [] => (r, [])
  | a :: additions =>
    let (r, answer) := r.add a
    let (r, answers) := r.addAll additions
    (r, answer :: answers)

/-! ## Keys at hand -/

/-- There are no keys yet, or they are those of the records. -/
def Keyed (r : Indexed) : Prop := r.keys = [] ∨ ∀ k, k ∈ r.keys ↔ k ∈ r.records.map Violation.key

theorem keyed_reloaded (r : Report) : Keyed ⟨r, []⟩ := .inl rfl

theorem toReport_enterKeys (r : Indexed) : r.enterKeys.toReport = r.toReport := by
  unfold enterKeys
  split <;> rfl

namespace Keyed

variable {r : Indexed} (h : r.Keyed)
include h

/-- When a record comes, the keys are those of the records. -/
theorem mem_enterKeys (k : Violation.Key) :
    k ∈ r.enterKeys.keys ↔ k ∈ r.records.map Violation.key := by
  unfold enterKeys
  split
  · exact Iff.rfl
  next kept =>
    rcases h with none | all
    · -- no keys are entered, so there is no record
      have empty : r.records = [] := by simpa [none] using kept
      simp [none, empty]
    · exact all k

theorem record_eq (v : Violation) :
    (r.record v).1.toReport = r.toReport.record v ∧ (r.record v).2 = (!r.has v) ∧
      (r.record v).1.Keyed := by
  have present : r.enterKeys.keys.contains v.key = r.has v := by
    rw [Bool.eq_iff_iff, List.contains_iff_mem, h.mem_enterKeys, has_eq_true_iff, List.mem_map]
  have same := r.toReport_enterKeys
  unfold Indexed.record Report.record
  simp only [present]
  split
  · refine ⟨same, by simp [*], .inr ?_⟩
    rw [same]
    exact h.mem_enterKeys
  · refine ⟨by rw [same], by simp [*], .inr fun k => ?_⟩
    simp only [List.mem_cons, h.mem_enterKeys, same, List.map_append, List.map_cons, List.map_nil,
      List.mem_append, List.not_mem_nil, or_false]
    exact or_comm

theorem extend_eq (vs : List Violation) :
    (r.extend vs).1.toReport = r.toReport.extend vs ∧
      (r.toReport.extend vs).size = r.size + (r.extend vs).2 ∧ (r.extend vs).1.Keyed := by
  induction vs generalizing r with
  | nil => exact ⟨rfl, rfl, h⟩
  | cons v vs ih =>
    obtain ⟨same, added, keyed⟩ := h.record_eq v
    obtain ⟨extended, count, keyed⟩ := ih keyed
    have first : r.toReport.extend (v :: vs) = (r.toReport.record v).extend vs := rfl
    refine ⟨?_, ?_, keyed⟩
    · rw [first, ← same]
      exact extended
    · rw [first, ← same, count, same, size_record]
      simp only [Indexed.extend, added]
      cases r.has v with
      | true => rfl
      | false => exact Nat.add_right_comm ..

/-- What an extension adds, and how much, is the first record of every key that is not present. -/
theorem extend_new (vs : List Violation) :
    let new := (distinctBy Violation.key vs).filter fun v => !r.has v
    (r.extend vs).1.records = r.records ++ new ∧ (r.extend vs).2 = new.length := by
  intro new
  obtain ⟨same, count, -⟩ := h.extend_eq vs
  have records : (r.toReport.extend vs).records = r.records ++ new := r.toReport.records_extend vs
  refine ⟨(congrArg Report.records same).trans records, ?_⟩
  simp only [size, records, List.length_append] at count
  omega

/-- **Keys at hand do not show.** An addition does what it does to a report without keys. -/
theorem add_eq (a : Addition) :
    (r.add a).1.toReport = (r.toReport.add a).1 ∧ (r.add a).2 = (r.toReport.add a).2 ∧
      (r.add a).1.Keyed := by
  cases a with
  | record v =>
    obtain ⟨same, added, keyed⟩ := h.record_eq v
    exact ⟨same, congrArg Answer.added added, keyed⟩
  | extend vs =>
    obtain ⟨same, count, keyed⟩ := h.extend_eq vs
    exact ⟨same, congrArg Answer.count (by omega), keyed⟩
  | merge other =>
    obtain ⟨same, count, keyed⟩ := h.extend_eq other.records
    refine ⟨same, congrArg Answer.count ?_, keyed⟩
    show (r.extend other.records).2 = (r.toReport.extend other.records).size - r.size
    omega

theorem addAll_eq (additions : List Addition) :
    (r.addAll additions).1.toReport = (r.toReport.addAll additions).1 ∧
      (r.addAll additions).2 = (r.toReport.addAll additions).2 ∧
      (r.addAll additions).1.Keyed := by
  induction additions generalizing r with
  | nil => exact ⟨rfl, rfl, h⟩
  | cons a additions ih =>
    obtain ⟨same, answer, keyed⟩ := h.add_eq a
    obtain ⟨rest, answers, keyed⟩ := ih keyed
    simp only [Indexed.addAll, Report.addAll, ← same, rest, answer, answers]
    exact ⟨trivial, trivial, keyed⟩

end Keyed

theorem keyed_empty : empty.Keyed := .inl rfl

/-- **A report that is read again goes on as the one that was written.** After any additions the
keys of the records are distinct, and a record is added exactly if none of them has its key. Of
several records, and of another report, the first of every key that is not present is added and
counted; a report has nothing to add to itself. The report that is read from what is written of it
has no keys at hand; but it answers all further additions alike, comes to the same records, and
merges alike. -/
theorem answers_of_reloaded (additions : List Addition) :
    let r := (empty.addAll additions).1
    let new := fun vs => (distinctBy Violation.key vs).filter fun v => !r.has v
    (r.records.map Violation.key).Nodup ∧
      (∀ v, ((r.record v).2 = true ↔ ∀ w ∈ r.records, w.key ≠ v.key) ∧
        (r.record v).1.records = if (r.record v).2 then r.records ++ [v] else r.records) ∧
      (∀ vs, (r.extend vs).1.records = r.records ++ new vs ∧ (r.extend vs).2 = (new vs).length) ∧
      (∀ other : Indexed, (r.merge other).1.records = r.records ++ new other.records ∧
        (r.merge other).2 = (new other.records).length) ∧
      ((r.merge r).1.records = r.records ∧ (r.merge r).2 = 0) ∧
      ∃ s, read? r.write = some s ∧ s.keys = [] ∧ s.records = r.records ∧
        (∀ more, (s.addAll more).2 = (r.addAll more).2 ∧
          (s.addAll more).1.records = (r.addAll more).1.records) ∧
        ((r.merge s).2 = 0 ∧ (s.merge r).2 = 0) ∧ ∀ t : Indexed, t.merge s = t.merge r := by
  intro r new
  obtain ⟨plain, -, keyed⟩ : r.toReport = (Report.empty.addAll additions).1 ∧ _ ∧ r.Keyed :=
    keyed_empty.addAll_eq additions
  have distinct : r.toReport.Distinct := by
    rw [plain]
    exact distinct_empty.addAll additions
  -- merging with the same records adds nothing, whatever the keys at hand are
  have unchanged {s : Indexed} (hs : s.Keyed) (same : s.toReport = r.toReport) :
      (s.merge r).1.toReport = s.toReport ∧ (s.merge r).2 = 0 := by
    obtain ⟨merged, count, -⟩ := hs.extend_eq r.records
    have nothing : s.toReport.extend r.records = s.toReport := by
      rw [same]
      exact r.toReport.merge_self
    rw [nothing] at merged count
    exact ⟨merged, Nat.left_eq_add.mp count⟩
  refine ⟨distinct, fun v => ?_, keyed.extend_new, fun other => keyed.extend_new other.records, ?_,
    ⟨r.toReport, []⟩, ?_, rfl, rfl, fun more => ?_, ?_, ?_⟩
  · obtain ⟨recorded, added, -⟩ := keyed.record_eq v
    constructor
    · simp [added, has]
    · rw [recorded, added, Report.record]
      cases r.has v <;> rfl
  · obtain ⟨merged, none⟩ := unchanged keyed rfl
    exact ⟨congrArg Report.records merged, none⟩
  · rw [Indexed.read?, read?_write]
    rfl
  · obtain ⟨ends, answers, -⟩ := keyed.addAll_eq more
    obtain ⟨ends', answers', -⟩ := (keyed_reloaded r.toReport).addAll_eq more
    exact ⟨answers'.trans answers.symm, congrArg Report.records (ends'.trans ends.symm)⟩
  · exact ⟨(unchanged keyed rfl).2, (unchanged (keyed_reloaded r.toReport) rfl).2⟩
  · intro t
    rfl

end Indexed

end Report

end Misuse
