import Misuse.Proofs.Combinations

/-!
# Exact arithmetic

An operation on integers of 64 bits gives what it gives on all integers (`Op.exact`), or nothing:
a sum or difference out of range, a remainder by zero, and the remainder of the least integer by
`-1` are refused (`Op.Undefined`). An operand counts as an integer if it is one, or a text that
spells one between blanks (`Scalar.Denotes`). So the candidate of two operand values is exact, or
one of these is the reason why it is not determined (`Candidate.Combines`). The candidates of an
expression are the table of these, row by row (`Arithmetic.Table`), unless there are too many. That
is decided by a product of sizes, which may be cut at the greatest size (`Integer.sizeProduct`)
without another outcome (`Arithmetic.candidates?_exact`).
-/

namespace Misuse

/-! ## Decimal text -/

namespace Integer

/-- One digit or more. -/
def Digits (ds : List Char) : Prop := ds ≠ [] ∧ ∀ d ∈ ds, d.isDigit = true

/-- Digits in base ten, with a sign or without. -/
inductive Spells : List Char → Int → Prop
  | plain {ds : List Char} : Digits ds → Spells ds (Nat.ofDigitChars 10 ds 0)
  | plus {ds : List Char} : Digits ds → Spells ('+' :: ds) (Nat.ofDigitChars 10 ds 0)
  | minus {ds : List Char} : Digits ds → Spells ('-' :: ds) (-Nat.ofDigitChars 10 ds 0)

theorem fits_iff (n : Int) : fits n = true ↔ least ≤ n ∧ n ≤ greatest := by
  simp [fits]

theorem natural?_eq_some_iff (ds : List Char) (n : Nat) :
    natural? ds = some n ↔ Digits ds ∧ Nat.ofDigitChars 10 ds 0 = n := by
  have digits : (ds.isEmpty || !ds.all Char.isDigit) = false ↔ Digits ds := by
    simp [Digits]
  unfold natural?
  by_cases h : Digits ds
  · rw [digits.mpr h]
    simp only [h, true_and, Bool.false_eq_true, ↓reduceIte, Option.some.injEq]
    rfl
  · rw [eq_true_of_ne_false (mt digits.mp h)]
    simp [h]

/-- What is read of digits, with the sign that stands before them. -/
theorem bind_natural?_eq_some_iff (signed : Nat → Int) (ds : List Char) (n : Int) :
    ((natural? ds).bind fun m => checked (signed m)) = some n ↔
      Digits ds ∧ signed (Nat.ofDigitChars 10 ds 0) = n ∧ fits n = true := by
  simp only [Option.bind_eq_some_iff, natural?_eq_some_iff, checked_eq_some_iff, fits_iff]
  constructor
  · rintro ⟨_, ⟨digits, rfl⟩, rfl, range⟩
    exact ⟨digits, rfl, range⟩
  · rintro ⟨digits, rfl, range⟩
    exact ⟨_, ⟨digits, rfl⟩, rfl, range⟩

/-- The integers that are read are the spelled ones in range. -/
theorem ofChars?_eq_some_iff (cs : List Char) (n : Int) :
    ofChars? cs = some n ↔ Spells cs n ∧ fits n = true := by
  constructor
  · intro h
    unfold ofChars? at h
    split at h
    all_goals obtain ⟨digits, rfl, fits⟩ := (bind_natural?_eq_some_iff _ _ n).mp h
    · exact ⟨.minus digits, fits⟩
    · exact ⟨.plus digits, fits⟩
    · exact ⟨.plain digits, fits⟩
  · rintro ⟨spells, fits⟩
    cases spells with
    | minus digits =>
      exact (bind_natural?_eq_some_iff (fun m => -(m : Int)) _ _).mpr ⟨digits, rfl, fits⟩
    | plus digits =>
      exact (bind_natural?_eq_some_iff (fun m => (m : Int)) _ _).mpr ⟨digits, rfl, fits⟩
    | plain digits =>
      have read := (bind_natural?_eq_some_iff (fun m => (m : Int)) cs _).mpr ⟨digits, rfl, fits⟩
      -- the first digit is no sign
      unfold ofChars?
      split
      · exact absurd (digits.2 _ List.mem_cons_self) (by decide)
      · exact absurd (digits.2 _ List.mem_cons_self) (by decide)
      · exact read

/-- No character of a spelled integer is blank. -/
theorem Spells.solid {cs : List Char} {n : Int} (h : Spells cs n) :
    cs ≠ [] ∧ ∀ c ∈ cs, Text.isBlank c = false := by
  have digit {ds : List Char} (digits : Digits ds) : ∀ c ∈ ds, Text.isBlank c = false := by
    intro c hc
    have range : 48 ≤ c.toNat ∧ c.toNat ≤ 57 := by
      simpa [Char.isDigit, UInt32.le_iff_toNat_le] using digits.2 c hc
    exact Text.isBlank_of_visible (by omega) (by omega)
  cases h with
  | plain digits => exact ⟨digits.1, digit digits⟩
  | plus digits => exact ⟨List.cons_ne_nil _ _, List.forall_mem_cons.mpr ⟨by decide, digit digits⟩⟩
  | minus digits => exact ⟨List.cons_ne_nil _ _, List.forall_mem_cons.mpr ⟨by decide, digit digits⟩⟩

end Integer

namespace Scalar

/-- The scalar is an integer, or a text that spells one of 64 bits between blanks. -/
inductive Denotes : Scalar → Int → Prop
  | int (n : Int) : Denotes (.int n) n
  | text {s : String} {before spelled after : List Char} {n : Int}
    (whole : s.toList = before ++ spelled ++ after)
    (blank : ∀ c ∈ before ++ after, Text.isBlank c = true)
    (spells : Integer.Spells spelled n) (fits : Integer.fits n = true) : Denotes (.text s) n

theorem asInt?_eq_some_iff (x : Scalar) (n : Int) : x.asInt? = some n ↔ x.Denotes n := by
  cases x with
  | int m =>
    constructor
    · rintro ⟨⟩
      exact .int n
    · rintro ⟨⟩
      rfl
  | text s =>
    rw [asInt?, Integer.ofText?, Integer.ofChars?_eq_some_iff]
    constructor
    · rintro ⟨spells, fits⟩
      obtain ⟨before, after, whole, blank⟩ := Text.exists_trimmed s.toList
      exact .text whole blank spells fits
    · rintro (_ | ⟨whole, blank, spells, fits⟩)
      rw [whole, Text.trimChars_eq blank spells.solid.2 spells.solid.1]
      exact ⟨spells, fits⟩

end Scalar

/-! ## Operations -/

namespace Arithmetic.Op

/-- The result on all integers. A remainder takes the sign of what is divided. -/
def exact : Op → Int → Int → Int
  | .add, a, b => a + b
  | .sub, a, b => a - b
  | .mod, a, b => a.tmod b

/-- There is no result among the integers of 64 bits. -/
def Undefined : Op → Int → Int → Prop
  | .add, a, b => Integer.fits (a + b) = false
  | .sub, a, b => Integer.fits (a - b) = false
  | .mod, a, b => b = 0 ∨ a = Integer.least ∧ b = -1

/-- Whatever is computed is exact. -/
theorem exact_of_compute? {op : Op} {a b n : Int} (h : op.compute? a b = some n) :
    ¬ op.Undefined a b ∧ n = op.exact a b := by
  cases op with
  | add =>
    obtain ⟨rfl, range⟩ := (Integer.add?_eq_some_iff a b n).mp h
    exact ⟨by simp [Undefined, (Integer.fits_iff _).mpr range], rfl⟩
  | sub =>
    obtain ⟨rfl, range⟩ := (Integer.sub?_eq_some_iff a b n).mp h
    exact ⟨by simp [Undefined, (Integer.fits_iff _).mpr range], rfl⟩
  | mod =>
    simp only [compute?, Integer.rem?] at h
    split at h
    · cases h
    next defined =>
      obtain ⟨rfl, -⟩ := (Integer.checked_eq_some_iff _ n).mp h
      exact ⟨defined, rfl⟩

theorem fits_tmod {a : Int} (ha : Integer.fits a = true) (b : Int) :
    Integer.fits (a.tmod b) = true := by
  rw [Integer.fits_iff] at *
  simp only [Integer.least, Integer.greatest] at *
  have size := Int.natAbs_tmod a b
  have smaller : a.natAbs % b.natAbs ≤ a.natAbs := Nat.mod_le _ _
  rcases Int.le_total 0 a with positive | negative
  · have sign : 0 ≤ a.tmod b := Int.tmod_nonneg b positive
    omega
  · have sign : 0 ≤ (-a).tmod b := Int.tmod_nonneg b (Int.neg_nonneg_of_nonpos negative)
    rw [Int.neg_tmod] at sign
    omega

/-- Nothing else is refused. -/
theorem undefined_of_compute? {op : Op} {a b : Int} (ha : Integer.fits a = true)
    (h : op.compute? a b = none) : op.Undefined a b := by
  have refused {n : Int} (h : Integer.checked n = none) : Integer.fits n = false := by
    simpa [Integer.checked] using h
  cases op with
  | add => exact refused h
  | sub => exact refused h
  | mod =>
    simp only [compute?, Integer.rem?] at h
    split at h
    next undefined => exact undefined
    next => exact absurd (fits_tmod ha b) (Bool.eq_false_iff.mp (refused h))

end Arithmetic.Op

/-! ## Combinations -/

namespace Candidate

/-- The value is determined, and an integer. -/
def Denotes (c : Candidate) (n : Int) : Prop := ∃ x, c.value = some x ∧ x.Denotes n

theorem denotes_iff (c : Candidate) (n : Int) :
    c.Denotes n ↔ c.value.bind Scalar.asInt? = some n := by
  simp only [Denotes, Option.bind_eq_some_iff, Scalar.asInt?_eq_some_iff]

/-- The candidate `c` of two operand values. It has the sites of both. If its value is determined,
it is the exact result of two integers; if not, an operand is no integer of 64 bits or they have no
result. -/
structure Combines (op : Arithmetic.Op) (l r c : Candidate) : Prop where
  sites : c.sites = l.sites ++ r.sites
  exact : ∀ x, c.value = some x →
    ∃ a b, l.Denotes a ∧ r.Denotes b ∧ ¬ op.Undefined a b ∧ x = .int (op.exact a b)
  undetermined : c.value = none →
    (¬ ∃ a, l.Denotes a ∧ Integer.fits a = true) ∨ (¬ ∃ b, r.Denotes b ∧ Integer.fits b = true) ∨
      ∃ a b, l.Denotes a ∧ r.Denotes b ∧ op.Undefined a b

end Candidate

namespace Arithmetic

theorem combines_combine (op : Op) (l r : Candidate) : l.Combines op r (combine op l r) where
  sites := rfl
  exact x h := by
    obtain ⟨a, ha, h⟩ := Option.bind_eq_some_iff.mp h
    obtain ⟨b, hb, h⟩ := Option.bind_eq_some_iff.mp h
    obtain ⟨n, computed, rfl⟩ := Option.map_eq_some_iff.mp h
    obtain ⟨defined, rfl⟩ := Op.exact_of_compute? computed
    exact ⟨a, b, (l.denotes_iff a).mpr ha, (r.denotes_iff b).mpr hb, defined, rfl⟩
  undetermined h := by
    simp only [Candidate.denotes_iff]
    cases hl : l.value.bind Scalar.asInt? with
    | none => exact .inl fun ⟨_, ha, _⟩ => by cases ha
    | some a =>
      cases hr : r.value.bind Scalar.asInt? with
      | none => exact .inr (.inl fun ⟨_, hb, _⟩ => by cases hb)
      | some b =>
        by_cases fits : Integer.fits a = true
        · have refused : op.compute? a b = none := by
            simpa [combine, hl, hr] using h
          exact .inr (.inr ⟨a, b, rfl, rfl, Op.undefined_of_compute? fits refused⟩)
        · refine .inl ?_
          rintro ⟨_, ⟨⟩, ha⟩
          exact fits ha

/-! ## Tables -/

/-- A table of combinations that is listed row by row. -/
theorem getElem?_flatMap_map {α β γ : Type} (f : α → β → γ) {rows : List α} {columns : List β}
    {i j : Nat} {a : α} {b : β} (ha : rows[i]? = some a) (hb : columns[j]? = some b) :
    (rows.flatMap fun a => columns.map (f a))[i * columns.length + j]? = some (f a b) := by
  have inRow : j < columns.length := (List.getElem?_eq_some_iff.mp hb).1
  induction rows generalizing i with
  | nil => cases ha
  | cons first rows ih =>
    rw [List.flatMap_cons]
    cases i with
    | zero =>
      cases ha
      rw [Nat.zero_mul, Nat.zero_add, List.getElem?_append_left (by simpa using inRow),
        List.getElem?_map, hb]
      rfl
    | succ i =>
      have later : (i + 1) * columns.length + j =
          (columns.map (f first)).length + (i * columns.length + j) := by
        rw [List.length_map, Nat.succ_mul]
        omega
      rw [later, List.getElem?_append_right (Nat.le_add_right _ _), Nat.add_sub_cancel_left]
      exact ih ha

/-- The candidates are those of all pairs of operand values, with a row for each left one. -/
structure Table (view : View) (e : Arithmetic) (cs : List Candidate) : Prop where
  length : cs.length = e.left.count view * e.right.count view
  cell : ∀ {i j : Nat} {l r : Candidate},
    (e.left.candidates view)[i]? = some l → (e.right.candidates view)[j]? = some r →
      ∃ c, cs[i * e.right.count view + j]? = some c ∧ l.Combines e.op r c

variable {view : View} {limit : Nat} {e : Arithmetic}

theorem isLift_iff : e.isLift = true ↔ e = lift e.left := by
  cases e
  simp [isLift, lift]

theorem candidates?_of_isLift (h : e.isLift = true) :
    e.candidates? view limit = some (e.left.candidates view) := by
  simp only [candidates?, h, ↓reduceIte]

theorem candidates?_eq_none_iff (h : e.isLift = false) :
    e.candidates? view limit = none ↔ limit < e.left.count view * e.right.count view := by
  simp [candidates?, h, Operand.length_candidates]

theorem exists_table (h : e.isLift = false)
    (few : e.left.count view * e.right.count view ≤ limit) :
    ∃ cs, e.candidates? view limit = some cs ∧ e.Table view cs := by
  have listed : e.candidates? view limit = some ((e.left.candidates view).flatMap fun l =>
      (e.right.candidates view).map (combine e.op l)) := by
    simp [candidates?, h, Operand.length_candidates, few]
  refine ⟨_, listed, ?_, fun {i j l r} hl hr => ?_⟩
  · simp only [List.length_flatMap, List.length_map, List.map_const', List.sum_replicate_nat,
      Operand.length_candidates]
  · have cell := getElem?_flatMap_map (combine e.op) hl hr
    rw [Operand.length_candidates] at cell
    exact ⟨_, cell, combines_combine e.op l r⟩

end Arithmetic

/-! ## Products of sizes -/

/-- The product of two sizes, which is cut where it is greater than any size. -/
def Integer.sizeProduct (m n : Nat) : Nat := min (m * n) greatestSize

theorem Integer.lt_sizeProduct_iff {limit m n : Nat}
    (h : limit < greatestSize ∨ m * n ≤ greatestSize) :
    limit < sizeProduct m n ↔ limit < m * n := by
  simp only [sizeProduct, Nat.lt_min]
  omega

/-- **Arithmetic is exact or refused.** A lone operand offers its own candidates. Any other
expression offers the table of its operands' values if these are no more than the limit, and nothing
if they are more. A product of sizes that is cut at the greatest size decides the same, unless that
size is the limit and there are more pairs still; where a table is made, it is not cut. -/
theorem Arithmetic.candidates?_exact (view : View) (limit : Nat) (e : Arithmetic) :
    (∀ o, e = lift o → e.candidates? view limit = some (o.candidates view)) ∧
      ((∀ o, e ≠ lift o) →
        (e.left.count view * e.right.count view ≤ limit →
          ∃ cs, e.candidates? view limit = some cs ∧ e.Table view cs) ∧
        (limit < e.left.count view * e.right.count view → e.candidates? view limit = none) ∧
        (limit < Integer.greatestSize ∨
            e.left.count view * e.right.count view ≤ Integer.greatestSize →
          (e.candidates? view limit = none ↔
            limit < Integer.sizeProduct (e.left.count view) (e.right.count view)) ∧
          ∀ cs, e.candidates? view limit = some cs →
            Integer.sizeProduct (e.left.count view) (e.right.count view) = cs.length)) := by
  refine ⟨?_, fun both => ?_⟩
  · rintro o rfl
    exact candidates?_of_isLift (isLift_iff.mpr rfl)
  have pairs : e.isLift = false :=
    Bool.eq_false_iff.mpr fun lone => both e.left (isLift_iff.mp lone)
  have none : e.candidates? view limit = none ↔ limit < e.left.count view * e.right.count view :=
    candidates?_eq_none_iff pairs
  refine ⟨exists_table pairs, none.mpr, fun sizes => ⟨?_, fun cs found => ?_⟩⟩
  · rw [none, Integer.lt_sizeProduct_iff sizes]
  · have few : e.left.count view * e.right.count view ≤ limit := by
      refine Nat.le_of_not_lt fun many => ?_
      rw [none.mpr many] at found
      cases found
    obtain ⟨_, table, length, -⟩ := exists_table pairs few
    cases found.symm.trans table
    rw [length, Integer.sizeProduct]
    omega

/-- The greatest integer, a text that spells one, and steps of which one is no number. -/
def stepwise : View :=
  { object := "c", self := "c@1", calls := []
    bindings :=
      [⟨"1", "size", .argument 0,
        [⟨.constant (.int Integer.greatest), none⟩, ⟨.constant (.text " -7 "), none⟩]⟩,
       ⟨"2", "step", .argument 1, [⟨.constant (.int 1), none⟩, ⟨.constant (.bool true), none⟩]⟩] }

theorem Arithmetic.candidates?_exact_stepwise :
    let e : Arithmetic := ⟨.var (.whole "size" "int"), .add, .var (.whole "step" "int")⟩
    (∀ o, e ≠ lift o) ∧ e.left.count stepwise * e.right.count stepwise ≤ 4 ∧
      ∃ cs, e.candidates? stepwise 4 = some cs ∧ e.Table stepwise cs ∧
        cs.map Candidate.value = [none, none, some (.int (-6)), none] ∧
        Integer.sizeProduct (e.left.count stepwise) (e.right.count stepwise) = cs.length := by
  intro e
  have both (o : Operand) (h : e = lift o) : False := by
    have right : Operand.var (.whole "step" "int") = .literal (.int 0) := congrArg right h
    cases right
  have few : e.left.count stepwise * e.right.count stepwise ≤ 4 := by decide +kernel
  have exact := (candidates?_exact stepwise 4 e).2 both
  obtain ⟨cs, found, table⟩ := exact.1 few
  have values : (e.candidates? stepwise 4).map (List.map Candidate.value) =
      some [none, none, some (.int (-6)), none] := by decide +kernel
  rw [found] at values
  have product := (exact.2.2 (.inl (by decide))).2 cs found
  exact ⟨both, few, cs, found, table, Option.some.inj values, product⟩

end Misuse
