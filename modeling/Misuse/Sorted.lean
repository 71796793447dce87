/-!
# Increasing lists

A finite set is kept as the increasing list of its members, so that two equal sets are
the same list. Main statements: `ofList` gives an increasing list (`increasing_ofList`)
with the members it is given (`mem_ofList`), and leaves an increasing list as it is
(`ofList_eq_self`).
-/

namespace Misuse.Sorted

variable {α : Type} [Ord α]

def insert (a : α) : List α → List α
  | [] => [a]
  | b :: r =>
    match compare a b with
    | .lt => a :: b :: r
    | .eq => b :: r
    | .gt => b :: insert a r

def ofList : List α → List α
  | [] => []
  | a :: r => insert a (ofList r)

/-- Every member is less than all that follow it. -/
def Increasing (s : List α) : Prop := s.Pairwise fun a b => compare a b = .lt

/-- The least member that both increasing lists have. -/
def common? [BEq α] (as bs : List α) : Option α := as.find? bs.contains

/-! ## Members -/

theorem mem_insert [Std.LawfulEqOrd α] (x a : α) (s : List α) :
    x ∈ insert a s ↔ x = a ∨ x ∈ s := by
  induction s with
  | nil => simp [insert]
  | cons b r ih =>
    unfold insert
    split
    next => simp
    next h =>
      have : a = b := Std.LawfulEqOrd.eq_of_compare h
      subst this
      simp
    next => simp [ih, or_left_comm]

theorem mem_ofList [Std.LawfulEqOrd α] (x : α) (s : List α) : x ∈ ofList s ↔ x ∈ s := by
  induction s with
  | nil => simp [ofList]
  | cons a r ih => simp [ofList, mem_insert, ih]

/-! ## Order -/

theorem increasing_insert [Std.TransOrd α] [Std.LawfulEqOrd α] (a : α) {s : List α}
    (h : Increasing s) : Increasing (insert a s) := by
  induction s with
  | nil => simp [insert, Increasing]
  | cons b r ih =>
    have hb : ∀ c ∈ r, compare b c = .lt := (List.pairwise_cons.mp h).1
    have hr : Increasing r := (List.pairwise_cons.mp h).2
    unfold insert
    split
    next hab =>
      refine List.pairwise_cons.mpr ⟨?_, h⟩
      intro c hc
      rcases List.mem_cons.mp hc with rfl | hc
      · exact hab
      · exact Std.TransCmp.lt_trans hab (hb c hc)
    next => exact h
    next hab =>
      refine List.pairwise_cons.mpr ⟨?_, ih hr⟩
      intro c hc
      rcases (mem_insert c a r).mp hc with rfl | hc
      · exact Std.OrientedCmp.lt_of_gt hab
      · exact hb c hc

theorem increasing_ofList [Std.TransOrd α] [Std.LawfulEqOrd α] (s : List α) :
    Increasing (ofList s) := by
  induction s with
  | nil => exact List.Pairwise.nil
  | cons a r ih => exact increasing_insert a ih

theorem insert_eq_cons {a : α} {s : List α} (h : ∀ b ∈ s, compare a b = .lt) :
    insert a s = a :: s := by
  cases s with
  | nil => rfl
  | cons b r => simp [insert, h b (List.mem_cons_self ..)]

/-- An increasing list is the list of its own members. -/
theorem ofList_eq_self {s : List α} (h : Increasing s) : ofList s = s := by
  induction s with
  | nil => rfl
  | cons a r ih =>
    obtain ⟨ha, hr⟩ := List.pairwise_cons.mp h
    rw [ofList, ih hr, insert_eq_cons ha]

/-- Increasing lists with the same members are the same. -/
theorem eq_of_mem_iff [Std.TransOrd α] [Std.LawfulEqOrd α] {s t : List α} (hs : Increasing s)
    (ht : Increasing t) (h : ∀ a, a ∈ s ↔ a ∈ t) : s = t := by
  have ne_of_lt : ∀ {a b : α}, compare a b = .lt → a ≠ b := by
    rintro a _ hab rfl
    exact Std.OrientedCmp.not_lt_of_lt hab hab
  have antisymm : ∀ a b : α, compare a b = .lt → compare b a = .lt → a = b :=
    fun a b hab hba => absurd hba (Std.OrientedCmp.not_lt_of_lt hab)
  have perm : s.Perm t :=
    (List.perm_ext_iff_of_nodup (hs.imp ne_of_lt) (ht.imp ne_of_lt)).mpr h
  exact List.Perm.eq_of_pairwise (fun a b _ _ => antisymm a b) hs ht perm

theorem ofList_congr [Std.TransOrd α] [Std.LawfulEqOrd α] {s t : List α}
    (h : ∀ a, a ∈ s ↔ a ∈ t) : ofList s = ofList t := by
  refine eq_of_mem_iff (increasing_ofList s) (increasing_ofList t) fun a => ?_
  rw [mem_ofList, mem_ofList, h]

end Misuse.Sorted
