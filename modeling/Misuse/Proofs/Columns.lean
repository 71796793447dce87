import Mathlib.Data.List.Forall2
import Misuse.Keying

/-!
# Columns and rows

The terms of a predicate become columns of keys, and facts and queries are the rows of their
product. A row takes one key of each column (`mem_rows_iff`), so some rows of two products
unify exactly if some keys of each two columns do (`exists_unify_rows_iff`). What an effect
establishes is a product of its columns, some of them widened to every value
(`published_eq`), and has no more rows than the cap allows (`length_published_le`).
-/

namespace Misuse

/-! ## Products -/

namespace Key

/-- Some keys of two columns unify. -/
def Meet (stored asked : List Key) : Prop := ∃ k ∈ stored, ∃ l ∈ asked, unifies k l = true

theorem unifies_any (k : Key) : unifies .any k = true := by simp [unifies]

theorem unifies_any_right (k : Key) : unifies k .any = true := by simp [unifies]

theorem unifies_self (k : Key) : unifies k k = true := by simp [unifies]

/-- A row takes one key of each column. -/
theorem mem_rows_iff (columns : List (List Key)) (row : Args) :
    row ∈ rows columns ↔ List.Forall₂ (fun k column => k ∈ column) row columns := by
  induction columns generalizing row with
  | nil => simp [rows]
  | cons column columns ih =>
    simp only [rows, List.mem_flatMap, List.mem_map]
    constructor
    · rintro ⟨k, hk, rest, hrest, rfl⟩
      exact .cons hk ((ih rest).mp hrest)
    · intro h
      cases h with
      | cons hk hrest => exact ⟨_, hk, _, (ih _).mpr hrest, rfl⟩

theorem length_rows (columns : List (List Key)) : (rows columns).length = rowCount columns := by
  induction columns with
  | nil => rfl
  | cons column columns ih => simp [rows, rowCount, List.length_flatMap, ih]

theorem rowCount_le_one {columns : List (List Key)} (h : ∀ c ∈ columns, c.length ≤ 1) :
    rowCount columns ≤ 1 := by
  induction columns with
  | nil => exact Nat.le_refl 1
  | cons column columns ih =>
    obtain ⟨hcolumn, hrest⟩ := List.forall_mem_cons.mp h
    exact Nat.mul_le_mul hcolumn (ih hrest)

/-- Some rows of two products are related position by position exactly if some keys of each two
columns are. -/
theorem exists_pointwise_rows_iff (rel : Key → Key → Bool) (columns asked : List (List Key)) :
    (∃ row ∈ rows columns, ∃ query ∈ rows asked, pointwise rel row query = true) ↔
      List.Forall₂ (fun column column' => ∃ k ∈ column, ∃ l ∈ column', rel k l = true)
        columns asked := by
  induction columns generalizing asked with
  | nil =>
    cases asked with
    | nil => simp [rows, pointwise]
    | cons a as => simp [rows, pointwise]
  | cons column columns ih =>
    cases asked with
    | nil => simp [rows, pointwise]
    | cons a as =>
      rw [List.forall₂_cons, ← ih as]
      simp only [rows, List.mem_flatMap, List.mem_map]
      constructor
      · rintro ⟨_, ⟨k, hk, row, hrow, rfl⟩, _, ⟨l, hl, query, hquery, rfl⟩, related⟩
        obtain ⟨head, tail⟩ := Bool.and_eq_true_iff.mp related
        exact ⟨⟨k, hk, l, hl, head⟩, row, hrow, query, hquery, tail⟩
      · rintro ⟨⟨k, hk, l, hl, head⟩, row, hrow, query, hquery, tail⟩
        exact ⟨_, ⟨k, hk, row, hrow, rfl⟩, _, ⟨l, hl, query, hquery, rfl⟩,
          Bool.and_eq_true_iff.mpr ⟨head, tail⟩⟩

/-- Rows of two products unify exactly if the columns do, one by one. -/
theorem exists_unify_rows_iff (columns asked : List (List Key)) :
    (∃ row ∈ rows columns, ∃ query ∈ rows asked, Args.unify row query = true) ↔
      List.Forall₂ Meet columns asked :=
  exists_pointwise_rows_iff unifies columns asked

/-- A list is the only row of the product of its keys. -/
theorem rows_map_singleton (args : Args) : rows (args.map fun k => [k]) = [args] := by
  induction args with
  | nil => rfl
  | cons k args ih => simp [rows, ih]

end Key

/-! ## Published columns -/

namespace Term

/-- A term that stands for every value. -/
def isWild : Term → Bool
  | .wildcard | .method _ | .type _ => true
  | .self | .var _ => false

theorem keys_of_isWild {t : Term} (h : t.isWild = true) (view : View) : t.keys view = [.any] := by
  cases t with
  | self => cases h
  | var v => cases h
  | _ => rfl

/-- The keys of a term, or every value if it has none. -/
def openKeys (view : View) (t : Term) : List Key :=
  if (t.keys view).isEmpty then [.any] else t.keys view

end Term

namespace Atom

/-- The combinations of the keys exceed the cap. -/
def Overruns (view : View) (cap : Nat) (a : Atom) : Prop :=
  Key.rowCount (a.terms.map (Term.openKeys view)) > max cap 1

instance (view : View) (cap : Nat) (a : Atom) : Decidable (a.Overruns view cap) :=
  inferInstanceAs (Decidable (_ > _))

/-- What an atom establishes at a term: its keys, or every value where it has none, and where
it has several while the combinations exceed the cap. -/
def establishedKeys (view : View) (cap : Nat) (a : Atom) (t : Term) : List Key :=
  if t.keys view = [] ∨ a.Overruns view cap ∧ 1 < (t.keys view).length then [.any]
  else t.keys view

variable (view : View) (cap : Nat) (a : Atom)

theorem establishedKeys_ne_nil (t : Term) : a.establishedKeys view cap t ≠ [] := by
  unfold establishedKeys
  split
  next => simp
  next h => exact fun hc => h (.inl hc)

theorem widenedColumns_eq :
    a.widenedColumns view (max cap 1) = a.terms.map (a.establishedKeys view cap) := by
  have opened : (a.columns view).map (fun c => if c.isEmpty then [Key.any] else c) =
      a.terms.map (Term.openKeys view) := by
    rw [columns, List.map_map]
    rfl
  unfold widenedColumns
  simp only [opened]
  split
  next many =>
    rw [List.map_map]
    refine List.map_congr_left fun t _ => ?_
    have overruns : a.Overruns view cap := many
    cases hk : t.keys view with
    | nil => simp [establishedKeys, Term.openKeys, hk]
    | cons k ks => simp [establishedKeys, Term.openKeys, hk, overruns]
  next within =>
    refine List.map_congr_left fun t _ => ?_
    have room : ¬a.Overruns view cap := within
    cases hk : t.keys view with
    | nil => simp [establishedKeys, Term.openKeys, hk]
    | cons k ks => simp [establishedKeys, Term.openKeys, hk, room]

/-- An atom that is not negated establishes the product of its columns. -/
theorem published_eq (h : a.negated = false) :
    a.published view cap = Key.rows (a.terms.map (a.establishedKeys view cap)) := by
  simp [published, h, widenedColumns_eq]

theorem rowCount_establishedKeys_le :
    Key.rowCount (a.terms.map (a.establishedKeys view cap)) ≤ max cap 1 := by
  by_cases many : a.Overruns view cap
  · refine Nat.le_trans (Key.rowCount_le_one ?_) (Nat.le_max_right cap 1)
    intro column hcolumn
    obtain ⟨t, -, rfl⟩ := List.mem_map.mp hcolumn
    unfold establishedKeys
    split
    next => exact Nat.le_refl 1
    next narrow => exact Nat.le_of_not_lt fun several => narrow (.inr ⟨many, several⟩)
  · have opened : a.terms.map (a.establishedKeys view cap) =
        a.terms.map (Term.openKeys view) := by
      refine List.map_congr_left fun t _ => ?_
      cases hk : t.keys view <;> simp [establishedKeys, Term.openKeys, hk, many]
    rw [opened]
    exact Nat.le_of_not_lt many

theorem length_published_le (h : a.negated = false) :
    (a.published view cap).length ≤ max cap 1 := by
  rw [a.published_eq view cap h, Key.length_rows]
  exact a.rowCount_establishedKeys_le view cap

end Atom

/-! ## Lookups -/

/-- Every term has a key, and the combinations are within the cap. -/
def Atom.Determined (view : View) (cap : Nat) (a : Atom) : Prop :=
  (∀ t ∈ a.terms, t.keys view ≠ []) ∧ Key.rowCount (a.columns view) ≤ max cap 1

instance (view : View) (cap : Nat) (a : Atom) : Decidable (a.Determined view cap) :=
  inferInstanceAs (Decidable (_ ∧ _))

theorem Atom.exactColumns?_eq (view : View) (cap : Nat) (a : Atom) :
    a.exactColumns? view (max cap 1) =
      if a.Determined view cap then some (a.columns view) else none := by
  have empty : (a.columns view).any List.isEmpty = true ↔ ¬∀ t ∈ a.terms, t.keys view ≠ [] := by
    simp [columns]
  unfold exactColumns?
  by_cases hkeys : ∀ t ∈ a.terms, t.keys view ≠ []
  · have full : (a.columns view).any List.isEmpty = false := by
      rw [Bool.eq_false_iff, ne_eq, empty]
      exact not_not.mpr hkeys
    by_cases hcap : Key.rowCount (a.columns view) ≤ max cap 1
    · simp only [full, Bool.false_or, decide_eq_true_eq, Nat.not_lt.mpr hcap, ↓reduceIte]
      rw [if_pos ⟨hkeys, hcap⟩]
    · simp only [full, Bool.false_or, decide_eq_true_eq, Nat.lt_of_not_le hcap, ↓reduceIte]
      rw [if_neg fun h => hcap h.2]
  · simp only [empty.mpr hkeys, Bool.true_or, ↓reduceIte]
    rw [if_neg fun h => hkeys h.1]

namespace FactStore

/-- Some row of an atom is found. -/
def Finds (s : FactStore) (view : View) (a : Atom) : Prop :=
  ∃ row ∈ Key.rows (a.columns view), s.query a.name row = true

instance (s : FactStore) (view : View) (a : Atom) : Decidable (s.Finds view a) :=
  inferInstanceAs (Decidable (∃ row ∈ Key.rows (a.columns view), s.query a.name row = true))

/-- A determined predicate is decided by whether some row is found. -/
theorem truth_lookup (s : FactStore) (cap : Nat) (p : Predicate) (view : View) :
    (s.lookup cap p view).truth =
      if p.atom.Determined view cap then
        .ofBool (decide (s.Finds view p.atom) != p.atom.negated)
      else .unclear := by
  have found : (Key.rows (p.atom.columns view)).any (s.query p.atom.name) =
      decide (s.Finds view p.atom) := by
    rw [Bool.eq_iff_iff, List.any_eq_true, decide_eq_true_eq]
    rfl
  unfold lookup
  rw [p.atom.exactColumns?_eq view cap]
  by_cases h : p.atom.Determined view cap
  · simp only [h, ↓reduceIte, found]
    rfl
  · simp only [h, ↓reduceIte]
    rfl

end FactStore

end Misuse
