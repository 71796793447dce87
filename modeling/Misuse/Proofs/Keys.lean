import Misuse.Fact

/-!
# Keys and argument lists

The order of keys is a lawful total order, so an increasing list of argument lists is
determined by its members. Where no wildcard occurs, unifying and covering are equality
(`unify_eq_true_iff_of_narrow`, `cover_eq_true_iff_of_narrow`).
-/

namespace Misuse

/-! ## The order of keys -/

namespace Key

/-- Objects come before literals, literals before every value. -/
def rank : Key → Nat
  | .object _ => 0
  | .constant _ => 1
  | .any => 2

/-- The text of a key, by which keys of one rank are ordered. -/
def text : Key → String
  | .object id => id
  | .constant text => text
  | .any => ""

theorem compare_eq_rank_text :
    (compare : Key → Key → Ordering) = compareLex (compareOn rank) (compareOn text) := by
  funext a b
  cases a with
  | object x =>
    cases b with
    | object y =>
      change (compare x y).then .eq = compare x y
      exact Ordering.then_eq
    | constant y => rfl
    | any => rfl
  | constant x =>
    cases b with
    | object y => rfl
    | constant y =>
      change (compare x y).then .eq = compare x y
      exact Ordering.then_eq
    | any => rfl
  | any => cases b <;> rfl

theorem ext_rank_text {a b : Key} (hr : a.rank = b.rank) (ht : a.text = b.text) : a = b := by
  cases a <;> cases b <;> simp_all [rank, text]

instance : Std.TransOrd Key := by
  unfold Std.TransOrd
  rw [compare_eq_rank_text]
  infer_instance

instance : Std.LawfulEqOrd Key where
  eq_of_compare {a b} h := by
    rw [compare_eq_rank_text] at h
    obtain ⟨hr, ht⟩ := compareLex_eq_eq.mp h
    exact ext_rank_text (Std.LawfulEqOrd.eq_of_compare hr) (Std.LawfulEqOrd.eq_of_compare ht)

/-! ## Unifying and covering -/

@[simp] theorem covers_self (a : Key) : covers a a = true := by simp [covers]

theorem unifies_eq_true_iff {a b : Key} (ha : a ≠ .any) (hb : b ≠ .any) :
    unifies a b = true ↔ a = b := by
  simp [unifies, ha, hb]

theorem covers_eq_true_iff {a b : Key} (ha : a ≠ .any) : covers a b = true ↔ a = b := by
  simp [covers, ha]

end Key

namespace Args

theorem hasAny_cons (k : Key) (args : Args) :
    hasAny (k :: args) = false ↔ k ≠ .any ∧ hasAny args = false := by
  simp only [hasAny, List.contains_cons, Bool.or_eq_false_iff, beq_eq_false_iff_ne]
  exact and_congr_left fun _ => ne_comm

@[simp] theorem cover_self (args : Args) : cover args args = true := by
  unfold cover
  induction args with
  | nil => rfl
  | cons k args ih => simp [Key.pointwise, ih]

/-- Without wildcards only a list itself unifies with a query. -/
theorem unify_eq_true_iff_of_narrow {args query : Args} (ha : hasAny args = false)
    (hq : hasAny query = false) : unify args query = true ↔ args = query := by
  unfold unify
  induction args generalizing query with
  | nil => cases query <;> simp [Key.pointwise]
  | cons k args ih =>
    cases query with
    | nil => simp [Key.pointwise]
    | cons l query =>
      obtain ⟨hk, ha⟩ := (hasAny_cons k args).mp ha
      obtain ⟨hl, hq⟩ := (hasAny_cons l query).mp hq
      simp only [Key.pointwise, Bool.and_eq_true, Key.unifies_eq_true_iff hk hl, ih ha hq,
        List.cons.injEq]

/-- A retraction without wildcards covers its own list only. -/
theorem cover_eq_true_iff_of_narrow {retraction args : Args} (hr : hasAny retraction = false) :
    cover retraction args = true ↔ retraction = args := by
  unfold cover
  induction retraction generalizing args with
  | nil => cases args <;> simp [Key.pointwise]
  | cons k retraction ih =>
    cases args with
    | nil => simp [Key.pointwise]
    | cons l args =>
      obtain ⟨hk, hr⟩ := (hasAny_cons k retraction).mp hr
      simp only [Key.pointwise, Bool.and_eq_true, Key.covers_eq_true_iff hk, ih hr,
        List.cons.injEq]

end Args

end Misuse
