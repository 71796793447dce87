import Mathlib.Data.List.Pairwise
import Misuse.Proofs.Records

/-!
# Sorted records

`sorted` leaves records in their order that it compares as equal, which are those of one kind,
rule, object, first site and subject (`Violation.Ties`). So the sorted lists of two reports are the
same exactly if the reports have the same records and those that tie stand in the same order
(`sorted_eq_sorted_iff`). The sorted list of a report depends on its records alone exactly if no two
different ones tie (`sorted_depends_iff`). Those of a recorded report that tie differ in later
sites.
-/

namespace Misuse

/-! ## Stable sorting -/

section Stable

variable {α : Type} (cmp : α → α → Ordering) [Std.TransCmp cmp]

theorem isLE_or_isLE (a b : α) : ((cmp a b).isLE || (cmp b a).isLE) = true := by
  rw [Bool.or_eq_true]
  cases h : cmp a b with
  | gt => exact .inr (congrArg Ordering.isLE (Std.OrientedCmp.lt_of_gt h))
  | _ => exact .inl rfl

theorem pairwise_mergeSort_isLE (s : List α) :
    (s.mergeSort fun a b => (cmp a b).isLE).Pairwise fun a b => (cmp a b).isLE = true :=
  List.pairwise_mergeSort (fun _ _ _ => Std.TransCmp.isLE_trans) (isLE_or_isLE cmp) s

/-- Items that compare as equal keep their order. -/
theorem filter_mergeSort (s : List α) (a : α) :
    (s.mergeSort fun a b => (cmp a b).isLE).filter (fun b => cmp a b == .eq) =
      s.filter fun b => cmp a b == .eq := by
  have level : (s.filter fun b => cmp a b == .eq).Pairwise fun b c => (cmp b c).isLE = true := by
    refine List.pairwise_of_forall_mem_list fun b hb c hc => ?_
    have hab : cmp a b = .eq := eq_of_beq (List.mem_filter.mp hb).2
    have hac : cmp a c = .eq := eq_of_beq (List.mem_filter.mp hc).2
    rw [← Std.TransCmp.congr_left hab, hac]
    rfl
  have kept := (List.sublist_mergeSort (fun _ _ _ => Std.TransCmp.isLE_trans) (isLE_or_isLE cmp)
    level List.filter_sublist).filter fun b => cmp a b == .eq
  rw [List.filter_filter] at kept
  simp only [Bool.and_self] at kept
  exact (kept.eq_of_length ((List.mergeSort_perm s _).filter _).length_eq.symm).symm

variable {cmp}

theorem mem_of_filter_eq {s t : List α}
    (h : ∀ a, s.filter (fun b => cmp a b == .eq) = t.filter fun b => cmp a b == .eq) {a : α}
    (ha : a ∈ s) : a ∈ t := by
  have own : a ∈ s.filter fun b => cmp a b == .eq :=
    List.mem_filter.mpr ⟨ha, beq_iff_eq.mpr Std.ReflCmp.compare_self⟩
  exact (List.mem_filter.mp (h a ▸ own)).1

theorem isLE_of_mem {s : List α} {a b : α}
    (h : (a :: s).Pairwise fun a b => (cmp a b).isLE = true) (hb : b ∈ a :: s) :
    (cmp a b).isLE = true := by
  rcases List.mem_cons.mp hb with rfl | hb
  · exact Std.ReflCmp.isLE_rfl
  · exact List.rel_of_pairwise_cons h hb

/-- A sorted list is told by the items that compare as equal to each. -/
theorem eq_of_filter_eq {s t : List α} (hs : s.Pairwise fun a b => (cmp a b).isLE = true)
    (ht : t.Pairwise fun a b => (cmp a b).isLE = true)
    (h : ∀ a, s.filter (fun b => cmp a b == .eq) = t.filter fun b => cmp a b == .eq) : s = t := by
  induction s generalizing t with
  | nil =>
    cases t with
    | nil => rfl
    | cons b t => cases mem_of_filter_eq (fun a => (h a).symm) List.mem_cons_self
  | cons a s ih =>
    cases t with
    | nil => cases mem_of_filter_eq h List.mem_cons_self
    | cons b t =>
      -- each head is in the other list, so neither comes before the other
      have hab := isLE_of_mem hs (mem_of_filter_eq (fun c => (h c).symm) List.mem_cons_self)
      have hba := isLE_of_mem ht (mem_of_filter_eq h List.mem_cons_self)
      have tie : (cmp a b == .eq) = true := beq_iff_eq.mpr (Std.OrientedCmp.isLE_antisymm hab hba)
      have self : (cmp a a == .eq) = true := beq_iff_eq.mpr Std.ReflCmp.compare_self
      have heads := h a
      rw [List.filter_cons, if_pos self, List.filter_cons, if_pos tie] at heads
      obtain rfl : a = b := (List.cons.inj heads).1
      refine congrArg (a :: ·) (ih hs.of_cons ht.of_cons fun c => ?_)
      have same := h c
      rw [List.filter_cons, List.filter_cons] at same
      split at same
      · exact (List.cons.inj same).2
      · exact same

variable (cmp)

theorem mergeSort_eq_mergeSort_iff (s t : List α) :
    (s.mergeSort fun a b => (cmp a b).isLE) = (t.mergeSort fun a b => (cmp a b).isLE) ↔
      ∀ a, s.filter (fun b => cmp a b == .eq) = t.filter fun b => cmp a b == .eq := by
  constructor
  · intro h a
    rw [← filter_mergeSort cmp s, h, filter_mergeSort]
  · intro h
    refine eq_of_filter_eq (pairwise_mergeSort_isLE cmp s) (pairwise_mergeSort_isLE cmp t) ?_
    simpa only [filter_mergeSort] using h

end Stable

/-! ## Comparing records -/

namespace Violation

/-- In the order in which they are listed. -/
def Kind.rank (k : Kind) : Nat := k.ctorIdx

theorem Kind.compare_eq_rank : (compare : Kind → Kind → Ordering) = compareOn Kind.rank := by
  funext k l
  cases k <;> cases l <;> rfl

instance : Std.TransOrd Kind := by
  unfold Std.TransOrd
  rw [Kind.compare_eq_rank]
  infer_instance

instance : Std.LawfulEqOrd Kind where
  eq_of_compare {k l} h := by
    cases k <;> cases l <;> first | rfl | cases h

/-- The two agree in all that records are sorted by. -/
structure Ties (v w : Violation) : Prop where
  kind : v.kind = w.kind
  rule : v.rule = w.rule
  object : v.object = w.object
  site : v.sites.head? = w.sites.head?
  subject : v.subject = w.subject

theorem Ties.symm {v w : Violation} (h : v.Ties w) : w.Ties v :=
  ⟨h.kind.symm, h.rule.symm, h.object.symm, h.site.symm, h.subject.symm⟩

theorem Ties.trans {u v w : Violation} (h : u.Ties v) (h' : v.Ties w) : u.Ties w :=
  ⟨h.kind.trans h'.kind, h.rule.trans h'.rule, h.object.trans h'.object, h.site.trans h'.site,
    h.subject.trans h'.subject⟩

/-- Records that tie have different keys only if they differ in later sites. -/
theorem Ties.key_eq_iff {v w : Violation} (h : v.Ties w) :
    v.key = w.key ↔ v.kind = .impreciseValue ∨ v.sites = w.sites := by
  simp only [key, h.kind, h.rule, h.object, h.subject, Key.mk.injEq, true_and]
  by_cases imprecise : w.kind = .impreciseValue <;> simp [imprecise]

end Violation

namespace Report

theorem compareRecords_eq_lex :
    compareRecords = compareLex (compareOn Violation.kind) (compareLex (compareOn Violation.rule)
      (compareLex (compareOn Violation.object)
        (compareLex (compareOn fun v => v.sites.head?) (compareOn Violation.subject)))) := rfl

instance : Std.TransCmp compareRecords := by
  rw [compareRecords_eq_lex]
  infer_instance

theorem compareRecords_eq_iff (v w : Violation) : compareRecords v w = .eq ↔ v.Ties w := by
  simp only [compareRecords_eq_lex, compareLex_eq_eq, compareOn, Std.LawfulEqOrd.compare_eq_iff_eq]
  constructor
  · rintro ⟨kind, rule, object, site, subject⟩
    exact ⟨kind, rule, object, site, subject⟩
  · rintro ⟨kind, rule, object, site, subject⟩
    exact ⟨kind, rule, object, site, subject⟩

instance (v w : Violation) : Decidable (v.Ties w) :=
  decidable_of_iff (compareRecords v w = .eq) (compareRecords_eq_iff v w)

/-- The records that tie with this one, in the order they were found. -/
def tiedWith (r : Report) (v : Violation) : List Violation :=
  r.records.filter fun w => compareRecords v w == .eq

theorem mem_tiedWith_iff (r : Report) (v w : Violation) :
    w ∈ r.tiedWith v ↔ w ∈ r.records ∧ v.Ties w := by
  rw [tiedWith, List.mem_filter, beq_iff_eq, compareRecords_eq_iff]

/-! ## Sorted lists -/

theorem sorted_perm (r : Report) : r.sorted.Perm r.records := List.mergeSort_perm _ _

theorem sorted_eq_iff_tiedWith (r s : Report) :
    r.sorted = s.sorted ↔ ∀ v, r.tiedWith v = s.tiedWith v :=
  mergeSort_eq_mergeSort_iff compareRecords r.records s.records

/-- The sorted list tells the records, and the order of those that tie. -/
theorem sorted_eq_sorted_iff (r s : Report) :
    r.sorted = s.sorted ↔ r.records.Perm s.records ∧ ∀ v, r.tiedWith v = s.tiedWith v := by
  rw [sorted_eq_iff_tiedWith, iff_and_self]
  intro tied
  have same := (sorted_eq_iff_tiedWith r s).mpr tied
  exact (r.sorted_perm.symm.trans (.of_eq same)).trans s.sorted_perm

/-- The sorted list depends on the records alone: however they are arranged, it is the same. -/
def SortsAlike (r : Report) : Prop :=
  ∀ s : Report, s.records.Perm r.records → s.sorted = r.sorted

/-- If only equal records tie, their order cannot be told. -/
theorem tiedWith_eq_of_perm {r s : Report} (h : s.records.Perm r.records)
    (equal : ∀ v ∈ r.records, ∀ w ∈ r.records, v.Ties w → v = w) (v : Violation) :
    s.tiedWith v = r.tiedWith v := by
  have same (w : Violation) (hw : w ∈ s.tiedWith v) (x : Violation) (hx : x ∈ r.tiedWith v) :
      w = x := by
    obtain ⟨hw, hvw⟩ := (s.mem_tiedWith_iff v w).mp hw
    obtain ⟨hx, hvx⟩ := (r.mem_tiedWith_iff v x).mp hx
    exact equal w (h.mem_iff.mp hw) x hx (hvw.symm.trans hvx)
  have any (t : List Violation) : t.Pairwise fun _ _ => True :=
    List.pairwise_of_forall fun _ _ => trivial
  exact List.Perm.eq_of_pairwise (fun w x hw hx _ _ => same w hw x hx) (any _) (any _) (h.filter _)

theorem sortsAlike_iff (r : Report) :
    r.SortsAlike ↔ ∀ v ∈ r.records, ∀ w ∈ r.records, v.Ties w → v = w := by
  constructor
  · intro alike v hv w hw tie
    -- either of the two may come first
    have ahead {x : Violation} (hx : x ∈ r.records) :
        Report.sorted ⟨x :: r.records.erase x⟩ = r.sorted :=
      alike _ (List.perm_cons_erase hx).symm
    have order := (sorted_eq_iff_tiedWith _ _).mp ((ahead hv).trans (ahead hw).symm) v
    have own : compareRecords v v = .eq := Std.ReflCmp.compare_self
    have other : compareRecords v w = .eq := (compareRecords_eq_iff v w).mpr tie
    simp only [tiedWith, List.filter_cons, own, other, beq_self_eq_true, ↓reduceIte] at order
    exact (List.cons.inj order).1
  · intro equal s h
    exact (sorted_eq_iff_tiedWith s r).mpr fun v => tiedWith_eq_of_perm h equal v

/-- **Sorted lists compare records as far as none tie.** The sorted lists of two reports are the
same exactly if the reports have the same records and those that tie stand in the same order. So
the sorted list depends on the records alone exactly if no two different ones tie. Where each key
is there once, that is so exactly if records that tie, advisories aside, have the same later
sites. -/
theorem sorted_depends_iff (r : Report) :
    (∀ s : Report, s.sorted = r.sorted ↔
      s.records.Perm r.records ∧ ∀ v, s.tiedWith v = r.tiedWith v) ∧
      (r.SortsAlike ↔ ∀ v ∈ r.records, ∀ w ∈ r.records, v.Ties w → v = w) ∧
      (r.Distinct → (r.SortsAlike ↔ ∀ v ∈ r.records, ∀ w ∈ r.records, v.Ties w →
        v.kind = .impreciseValue ∨ v.sites = w.sites)) := by
  refine ⟨fun s => sorted_eq_sorted_iff s r, r.sortsAlike_iff, fun distinct => ?_⟩
  rw [sortsAlike_iff]
  constructor
  · rintro equal v hv w hw tie
    exact .inr (congrArg Violation.sites (equal v hv w hw tie))
  · rintro later v hv w hw tie
    exact List.inj_on_of_nodup_map distinct hv hw (tie.key_eq_iff.mpr (later v hv w hw tie))

/-- Of three uses the first and the second are at fault, or the first and the third. -/
def earlierUses : Violation := .constraint "Cipher" "c" "alg in \x7bAES\x7d" ["1", "2"]
def laterUses : Violation := .constraint "Cipher" "c" "alg in \x7bAES\x7d" ["1", "3"]

/-- With another first site it does not matter which use came first. -/
theorem sorted_depends_iff_sites :
    let r := empty.extend [.constraint "Cipher" "c" "alg in \x7bAES\x7d" ["2", "3"], earlierUses]
    r.Distinct ∧ r.SortsAlike := by
  intro r
  have distinct : r.Distinct := by
    unfold Distinct
    decide +kernel
  exact ⟨distinct, ((sorted_depends_iff r).2.2 distinct).mpr (by decide +kernel)⟩

theorem sorted_eq_self {r : Report}
    (h : r.records.Pairwise fun v w => (compareRecords v w).isLE = true) : r.sorted = r.records :=
  List.mergeSort_of_pairwise h

/-- Both uses are kept, and they are listed in the order in which they came. -/
theorem sorted_in_order_of_arrival :
    let r := empty.extend [earlierUses, laterUses]
    let s := empty.extend [laterUses, earlierUses]
    r.records.Perm s.records ∧ r.sorted = [earlierUses, laterUses] ∧
      s.sorted = [laterUses, earlierUses] ∧ r.sorted ≠ s.sorted := by
  intro r s
  have earlier : r.sorted = [earlierUses, laterUses] :=
    (sorted_eq_self (by decide +kernel)).trans (by decide +kernel)
  have later : s.sorted = [laterUses, earlierUses] :=
    (sorted_eq_self (by decide +kernel)).trans (by decide +kernel)
  refine ⟨by decide +kernel, earlier, later, ?_⟩
  rw [earlier, later]
  decide +kernel

end Report

end Misuse
