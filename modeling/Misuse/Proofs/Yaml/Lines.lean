import Misuse.Proofs.Yaml.Words

/-!
# Reading literal blocks back

The lines of a block are read one by one, each with the line ends behind it (`blockLines_line`).
What the block keeps of the line ends at its end is told by its header, so that a text is read as it
is (`blockScalar_literal`).
-/

namespace Misuse.Yaml

variable {c e m : Cursor} {fuel : Nat}

theorem Cursor.takeWhile_eq {p : Char → Bool} {w : List Char} (h : c.Passes w e)
    (taken : ∀ a ∈ w, (p a && !isBreak a) = true)
    (stops : ∀ a ∈ e.rest.head?, (p a && !isBreak a) = false) : c.takeWhile p = (w, e) := by
  have same : c.rest.takeWhile (fun a => p a && !isBreak a) = w := by
    rw [h.rest, List.takeWhile_append_of_pos taken]
    cases hr : e.rest with
    | nil => simp
    | cons a r => rw [List.takeWhile_cons, stops a (by rw [hr]; rfl)]; simp
  simp only [Cursor.takeWhile, same, h.2]

/-! ## Empty lines -/

section

variable {column : Option Nat} {reached : Nat} {breaks : List Char}

/-- Spaces before the column are passed over. -/
theorem emptyLines_spaces {n : Nat} (h : c.Passes (spaces n) e)
    (within : ∀ m ∈ column, e.column ≤ m) :
    emptyLines column (n + fuel) reached breaks c = emptyLines column fuel reached breaks e := by
  induction n generalizing c with
  | zero => rw [Cursor.passes_nil_iff.mp h, Nat.zero_add]
  | succ n ih =>
    obtain ⟨rest, tail⟩ := h.cons
    have ahead : e.column = c.column + (n + 1) := by
      rw [h.column_of_unbroken fun a ha => mem_spaces ha ▸ isBreak_space, spaces,
        List.length_replicate]
    have before : (column.all fun n => decide (c.column < n)) = true := by
      cases column with
      | none => rfl
      | some m =>
        have reach := within m rfl
        simp only [Option.all_some, decide_eq_true_eq]
        omega
    rw [Nat.add_right_comm, emptyLines, rest]
    simp only [before, beq_self_eq_true, Bool.and_self, ↓reduceIte]
    exact ih tail

/-- Line ends are gathered. -/
theorem emptyLines_breaks {bs : List Char} (lines : ∀ b ∈ bs, isBreak b = true)
    (h : c.Passes bs e) :
    ∃ reached', emptyLines column (bs.length + fuel) reached breaks c =
      emptyLines column fuel reached' (breaks ++ bs) e := by
  induction bs generalizing c reached breaks with
  | nil => exact ⟨reached, by simp [Cursor.passes_nil_iff.mp h]⟩
  | cons b bs ih =>
    obtain ⟨line, lines⟩ := List.forall_mem_cons.mp lines
    obtain ⟨rest, tail⟩ := h.cons
    have noSpace : (b == ' ') = false := by
      by_contra space
      rw [Bool.not_eq_false, beq_iff_eq] at space
      simp [space, isBreak_space] at line
    have noTab : (b == '\t') = false := by
      by_contra tab
      rw [Bool.not_eq_false, beq_iff_eq] at tab
      simp [tab, isBreak] at line
    obtain ⟨reached', later⟩ : ∃ reached',
        emptyLines column (bs.length + fuel) (max reached c.column) (breaks ++ [b]) c.next =
          emptyLines column fuel reached' (breaks ++ [b] ++ bs) e := ih lines tail
    refine ⟨reached', ?_⟩
    rw [List.length_cons, Nat.add_right_comm, emptyLines, rest]
    simp only [noSpace, noTab, line, Bool.and_false, Bool.false_eq_true, ↓reduceIte]
    rw [later, List.append_assoc]
    rfl

/-- The next line that is not empty. -/
theorem emptyLines_stop (noBreak : ∀ a ∈ c.rest.head?, isBreak a = false)
    (noGap : (column.all fun n => decide (c.column < n)) = true → Solid c.rest) :
    ∃ reached', emptyLines column fuel reached breaks c = some (reached', breaks, c) ∧
      (fuel ≠ 0 → reached' = max reached c.column) := by
  cases fuel with
  | zero => exact ⟨reached, rfl, fun h => absurd rfl h⟩
  | succ fuel =>
    refine ⟨max reached c.column, ?_, fun _ => rfl⟩
    rw [emptyLines]
    cases hr : c.rest with
    | nil => rfl
    | cons a r =>
      have line := noBreak a (by rw [hr]; rfl)
      cases hb : column.all fun n => decide (c.column < n) with
      | false => simp [line]
      | true =>
        obtain ⟨gap, -⟩ := (isSolid_iff a).mp (noGap hb a (by rw [hr]; rfl))
        simp only [isGap, Bool.or_eq_false_iff] at gap
        simp [gap, line]

end

/-- Empty lines before one in the column or before one that is outside of the block. -/
theorem exists_emptyLines {column n reached : Nat} {breaks bs : List Char}
    (lines : ∀ b ∈ bs, isBreak b = true) (h : c.Passes (bs ++ spaces n) e)
    (within : e.column ≤ column)
    (noBreak : ∀ a ∈ e.rest.head?, isBreak a = false) (noGap : e.column < column → Solid e.rest)
    (enough : bs.length + n ≤ fuel) :
    ∃ reached', emptyLines (some column) fuel reached breaks c =
      some (reached', breaks ++ bs, e) := by
  obtain ⟨k, rfl⟩ := Nat.exists_eq_add_of_le enough
  obtain ⟨m, ends, indents⟩ := Cursor.passes_append_iff.mp h
  obtain ⟨reached₁, first⟩ : ∃ reached₁,
      emptyLines (some column) (bs.length + (n + k)) reached breaks c =
        emptyLines (some column) (n + k) reached₁ (breaks ++ bs) m := emptyLines_breaks lines ends
  obtain ⟨reached₂, last, -⟩ : ∃ reached₂,
      emptyLines (some column) k reached₁ (breaks ++ bs) e = some (reached₂, breaks ++ bs, e) ∧ _ :=
    emptyLines_stop noBreak fun before => noGap (by simpa using before)
  refine ⟨reached₂, ?_⟩
  rw [Nat.add_assoc, first, emptyLines_spaces indents (by simpa using within), last]

/-- Spaces before the first word tell the column. -/
theorem emptyLines_first {n : Nat} (h : c.Passes (spaces n) e) (solid : Solid e.rest)
    (some : e.rest ≠ []) :
    emptyLines none c.rest.length 0 [] c = .some (e.column, [], e) := by
  have room : c.rest.length = n + e.rest.length := by
    rw [h.length_rest, spaces, List.length_replicate]
  obtain ⟨reached, start, reaches⟩ : ∃ reached,
      emptyLines none e.rest.length 0 [] e = .some (reached, [], e) ∧
        (e.rest.length ≠ 0 → reached = max 0 e.column) :=
    emptyLines_stop (fun a ha => ((isSolid_iff a).mp (solid a ha)).2) fun _ => solid
  have reach := reaches (List.length_pos_iff.mpr some).ne'
  rw [room, emptyLines_spaces h (by simp), start, reach, Nat.zero_max]

/-! ## Lines -/

section

variable {column : Nat} {last : Option Char} {indented : Bool} {breaks : List Char}

/-- A line, and the line ends and spaces behind it. -/
theorem blockLines_line {w bs : List Char} {b : Char} {n : Nat} (here : c.column = column)
    (line : c.Passes w m) (unbroken : ∀ a ∈ w, isBreak a = false)
    (lines : ∀ a ∈ b :: bs, isBreak a = true) (tail : m.Passes (b :: bs ++ spaces n) e)
    (within : n ≤ column) (noBreak : ∀ a ∈ e.rest.head?, isBreak a = false)
    (noGap : n < column → Solid e.rest) :
    blockLines false column (fuel + 1) last indented breaks c =
      (blockLines false column fuel (some b) (c.rest.head?.any isGap) bs e).map fun read =>
        (last.toList ++ breaks ++ w ++ read.1, read.2) := by
  obtain ⟨first, others⟩ := List.forall_mem_cons.mp lines
  have place : e.column = n := tail.column_of_breaks lines (List.cons_ne_nil _ _)
  obtain ⟨rest, behind⟩ := tail.cons
  have more : c.rest.isEmpty = false := by
    rw [line.rest, rest]
    simp
  have text : c.takeWhile (fun _ => true) = (w, m) := by
    refine Cursor.takeWhile_eq line (fun a ha => by simp [unbroken a ha]) fun a ha => ?_
    rw [rest] at ha
    obtain rfl : b = a := Option.some.inj ha
    simp [first]
  obtain ⟨reached', empty⟩ : ∃ reached',
      emptyLines (some column) m.rest.length 0 [] m.next = some (reached', [] ++ bs, e) :=
    exists_emptyLines others behind (place ▸ within) noBreak (place ▸ noGap)
      (by rw [rest]; simp [spaces]; omega)
  have close : m.rest.head? = some b := by rw [rest]; rfl
  rw [blockLines, if_neg (by simp [here, more])]
  simp only [text, empty, close, Option.bind_eq_bind, Option.bind_some, Bool.false_and,
    Bool.false_eq_true, ↓reduceIte, List.nil_append]
  cases blockLines false column fuel (some b) (c.rest.head?.any isGap) bs e <;> rfl

/-- Outside of the column the block is over. -/
theorem blockLines_over (outside : c.column ≠ column) :
    blockLines false column fuel last indented breaks c = some ([], last, breaks, c) := by
  cases fuel with
  | zero => rfl
  | succ fuel => simp [blockLines, outside]

end

/-! ## Written lines -/

section

variable {column : Nat}

theorem literalFrom_unbroken {w : List Char} (unbroken : ∀ a ∈ w, isBreak a = false)
    (s : List Char) :
    literalFrom column false (w ++ s) = w ++ literalFrom column false s := by
  induction w with
  | nil => rfl
  | cons a w ih =>
    obtain ⟨first, unbroken⟩ := List.forall_mem_cons.mp unbroken
    rw [List.cons_append, literalFrom, ih unbroken]
    simp [first]

theorem literalFrom_breaks {bs : List Char} {afterBreak : Bool} (lines : ∀ b ∈ bs, isBreak b = true)
    (some : bs ≠ []) (s : List Char) :
    literalFrom column afterBreak (bs ++ s) = bs ++ literalFrom column true s := by
  induction bs generalizing afterBreak with
  | nil => exact absurd rfl some
  | cons b bs ih =>
    obtain ⟨line, lines⟩ := List.forall_mem_cons.mp lines
    rw [List.cons_append, literalFrom, if_pos line]
    cases bs with
    | nil => rfl
    | cons b' bs => rw [ih lines (List.cons_ne_nil _ _)]; rfl

theorem literalFrom_line {t : List Char} (some : t ≠ [])
    (noBreak : ∀ a ∈ t.head?, isBreak a = false)
    (s : List Char) :
    literalFrom column true (t ++ s) = spaces column ++ literalFrom column false (t ++ s) := by
  obtain ⟨a, t, rfl⟩ := List.exists_cons_of_ne_nil some
  simp [literalFrom, noBreak a rfl]

end

/-- A text that neither begins nor ends with a line end. -/
structure IsTrimmed (t : List Char) : Prop where
  nonempty : t ≠ []
  first : ∀ a ∈ t.head?, isBreak a = false
  last : ∀ a ∈ t.getLast?, isBreak a = false

theorem IsTrimmed.tail {w g t : List Char} (h : IsTrimmed (w ++ (g ++ t))) (more : g ≠ [])
    (lines : ∀ a ∈ g, isBreak a = true) (first : ∀ a ∈ t.head?, isBreak a = false) :
    IsTrimmed t := by
  have nonempty : t ≠ [] := by
    rintro rfl
    obtain ⟨a, ha⟩ := Option.isSome_iff_exists.mp (List.getLast?_isSome.mpr more)
    have line := lines a (List.mem_of_getLast? ha)
    rw [h.last a (by simp [List.getLast?_append, ha])] at line
    exact Bool.false_ne_true line
  refine ⟨nonempty, first, fun a ha => h.last a ?_⟩
  rw [Option.mem_def] at ha
  simp [List.getLast?_append, ha]

theorem literalFrom_shown (column : Nat) (afterBreak : Bool) {s : List Char}
    (shown : ∀ a ∈ s, isPrintable a = true) :
    ∀ a ∈ literalFrom column afterBreak s, isPrintable a = true := by
  induction s generalizing afterBreak with
  | nil => exact List.forall_mem_nil _
  | cons a s ih =>
    obtain ⟨first, shown⟩ := List.forall_mem_cons.mp shown
    rw [literalFrom]
    split <;> simp only [List.forall_mem_append, List.forall_mem_cons]
    · exact ⟨first, ih true shown⟩
    · refine ⟨?_, first, ih false shown⟩
      split
      · exact spaces_shown column
      · exact List.forall_mem_nil _

theorem length_le_literalFrom (column : Nat) (afterBreak : Bool) (s : List Char) :
    s.length ≤ (literalFrom column afterBreak s).length := by
  induction s generalizing afterBreak with
  | nil => exact Nat.zero_le _
  | cons a s ih =>
    rw [literalFrom]
    split
    · exact Nat.succ_le_succ (ih true)
    · rw [List.length_append, List.length_cons, List.length_cons]
      exact Nat.le_add_left_of_le (Nat.succ_le_succ (ih false))

/-- A text that begins in the middle of a line begins with its own first character. -/
theorem literalFrom_head? {column : Nat} {t : List Char} (h : IsTrimmed t) (s : List Char) :
    (literalFrom column false t ++ s).head? = t.head? := by
  obtain ⟨a, t, rfl⟩ := List.exists_cons_of_ne_nil h.nonempty
  simp [literalFrom, h.first a rfl]

/-- From the column on, the lines are read as they are. -/
theorem blockLines_eq {column n : Nat} {t bs breaks : List Char} {b : Char} {last : Option Char}
    {indented : Bool} (trimmed : IsTrimmed t) (here : c.column = column)
    (lines : ∀ a ∈ b :: bs, isBreak a = true)
    (h : c.Passes (literalFrom column false t ++ (b :: bs ++ spaces n)) e) (outside : n < column)
    (solid : Solid e.rest) (enough : t.length < fuel) :
    blockLines false column fuel last indented breaks c =
      some (last.toList ++ breaks ++ t, some b, bs, e) := by
  induction t using words_induction (fun a => !isBreak a)
      generalizing c fuel last indented breaks with
  | word w unbroken =>
    obtain ⟨fuel, rfl⟩ := Nat.exists_eq_add_one.mpr (Nat.zero_lt_of_lt enough)
    have unbroken : ∀ a ∈ w, isBreak a = false := fun a ha => by simpa using unbroken a ha
    rw [← List.append_nil w, literalFrom_unbroken unbroken, literalFrom, List.append_nil] at h
    obtain ⟨m, line, tail⟩ := Cursor.passes_append_iff.mp h
    have short : e.column ≠ column := by
      rw [tail.column_of_breaks lines (List.cons_ne_nil _ _)]
      omega
    rw [blockLines_line here line unbroken lines tail outside.le
        (fun a ha => ((isSolid_iff a).mp (solid a ha)).2) fun _ => solid,
      blockLines_over short]
    simp
  | gap w g t unbroken more gaps first ih =>
    obtain ⟨fuel, rfl⟩ := Nat.exists_eq_add_one.mpr (Nat.zero_lt_of_lt enough)
    have unbroken : ∀ a ∈ w, isBreak a = false := fun a ha => by simpa using unbroken a ha
    have gaps : ∀ a ∈ g, isBreak a = true := fun a ha => by simpa using gaps a ha
    have later := trimmed.tail more gaps fun a ha => by simpa using first a ha
    have resumed : literalFrom column true t = spaces column ++ literalFrom column false t := by
      simpa using literalFrom_line later.nonempty later.first []
    rw [literalFrom_unbroken unbroken, literalFrom_breaks gaps more, resumed, List.append_assoc,
      List.append_assoc, List.append_assoc, ← List.append_assoc g] at h
    obtain ⟨m, line, tail⟩ := Cursor.passes_append_iff.mp h
    obtain ⟨m', between, others⟩ := Cursor.passes_append_iff.mp tail
    have place : m'.column = column := between.column_of_breaks gaps more
    have noBreak : ∀ a ∈ m'.rest.head?, isBreak a = false := by
      rw [others.rest, List.append_assoc, literalFrom_head? later]
      exact later.first
    obtain ⟨b', bs', rfl⟩ := List.exists_cons_of_ne_nil more
    simp only [List.length_append, List.length_cons] at enough
    rw [blockLines_line here line unbroken gaps between le_rfl noBreak
        (fun less => absurd less (lt_irrefl _)),
      ih later place others (by omega)]
    simp

/-! ## Headers -/

/-- The signs behind the mark of a block, with what they say. -/
theorem blockHeader?_eq {hint chomp : List Char} {columns : Option Nat} {ch : Chomping}
    (hinted : (hint, columns) ∈ [([], none), (['2'], some 2)])
    (chomped : (chomp, ch) ∈ [(['-'], Chomping.strip), ([], .clip), (['+'], .keep)])
    (h : c.Passes (hint ++ chomp) e) (line : e.rest.head? = some '\n') :
    blockHeader? c = some (ch, columns, e) := by
  obtain ⟨r, hr⟩ := List.head?_eq_some_iff.mp line
  have text := h.rest
  have behind := h.2
  rw [hr] at text
  simp only [List.mem_cons, List.not_mem_nil, or_false, Prod.mk.injEq] at hinted chomped
  rcases hinted with ⟨rfl, rfl⟩ | ⟨rfl, rfl⟩ <;>
    rcases chomped with ⟨rfl, rfl⟩ | ⟨rfl, rfl⟩ | ⟨rfl, rfl⟩ <;>
    simp [blockHeader?, text, behind, Cursor.rest_next, Cursor.skip, Char.isDigit]

/-- A text consists of line ends, or there are line ends around a text that neither begins nor ends
with one. -/
theorem exists_trimmed (s : List Char) :
    (∀ a ∈ s, isBreak a = true) ∨ ∃ lead t ends, s = lead ++ (t ++ ends) ∧ IsTrimmed t ∧
      (∀ a ∈ lead, isBreak a = true) ∧ ∀ a ∈ ends, isBreak a = true := by
  induction s with
  | nil => exact .inl (List.forall_mem_nil _)
  | cons a s ih =>
    cases line : isBreak a with
    | true =>
      rcases ih with lines | ⟨lead, t, ends, rfl, trimmed, before, behind⟩
      · exact .inl (List.forall_mem_cons.mpr ⟨line, lines⟩)
      · exact .inr ⟨a :: lead, t, ends, rfl, trimmed, List.forall_mem_cons.mpr ⟨line, before⟩,
          behind⟩
    | false =>
      right
      rcases ih with lines | ⟨lead, t, ends, rfl, trimmed, before, behind⟩
      · exact ⟨[], [a], s, rfl, ⟨List.cons_ne_nil _ _, by simpa using line, by simpa using line⟩,
          List.forall_mem_nil _, lines⟩
      · refine ⟨[], a :: (lead ++ t), ends, by simp,
          ⟨List.cons_ne_nil _ _, by simpa using line, ?_⟩, List.forall_mem_nil _, behind⟩
        intro z hz
        obtain ⟨y, hy⟩ := Option.isSome_iff_exists.mp (List.getLast?_isSome.mpr trimmed.nonempty)
        have same : z = y := by
          rw [← List.cons_append, List.getLast?_append, hy] at hz
          exact (Option.some.inj hz).symm
        exact same ▸ trimmed.last y hy

theorem literalFrom_append_breaks {column : Nat} {bs : List Char}
    (lines : ∀ b ∈ bs, isBreak b = true) (afterBreak : Bool) (s : List Char) :
    literalFrom column afterBreak (s ++ bs) = literalFrom column afterBreak s ++ bs := by
  induction s generalizing afterBreak with
  | nil =>
    cases bs with
    | nil => rfl
    | cons b bs =>
      have written : literalFrom column afterBreak (b :: bs ++ []) = b :: bs ++ [] :=
        literalFrom_breaks lines (List.cons_ne_nil b bs) []
      simpa [literalFrom] using written
  | cons a s ih =>
    rw [List.cons_append, literalFrom, literalFrom, ih, ih]
    split <;> simp

/-- The lines of a text, and the line end that a text without one is given. -/
theorem exists_literalLines {column : Nat} {lead t ends : List Char} (trimmed : IsTrimmed t)
    (before : ∀ a ∈ lead, isBreak a = true) (behind : ∀ a ∈ ends, isBreak a = true) :
    ∃ b bs, literalLines column (lead ++ (t ++ ends)) =
        lead ++ spaces column ++ (literalFrom column false t ++ b :: bs) ∧
      (∀ a ∈ b :: bs, isBreak a = true) ∧ ((ends = [] ∧ bs = []) ∨ ends = b :: bs) := by
  have first : literalFrom column true (lead ++ (t ++ ends)) =
      lead ++ spaces column ++ (literalFrom column false t ++ ends) := by
    have line : literalFrom column true (t ++ ends) =
        spaces column ++ (literalFrom column false t ++ ends) := by
      rw [literalFrom_line trimmed.nonempty trimmed.first, literalFrom_append_breaks behind]
    by_cases some : lead = []
    · simpa [some] using line
    · rw [literalFrom_breaks before some, line, List.append_assoc]
  unfold literalLines
  rw [first]
  cases ends with
  | nil =>
    refine ⟨'\n', [], ?_, List.forall_mem_singleton.mpr isBreak_newline, .inl ⟨rfl, rfl⟩⟩
    obtain ⟨z, hz⟩ := Option.isSome_iff_exists.mp (List.getLast?_isSome.mpr trimmed.nonempty)
    simp [List.getLast?_append, hz, trimmed.last z hz]
  | cons b bs =>
    refine ⟨b, bs, ?_, behind, .inr rfl⟩
    obtain ⟨z, hz⟩ := Option.isSome_iff_exists.mp (List.getLast?_isSome.mpr (List.cons_ne_nil b bs))
    simp [List.getLast?_append, hz, behind z (List.mem_of_getLast? hz)]

/-! ## Blocks -/

/-- What a block keeps of the line ends at its end. -/
def Chomping.kept : Chomping → List Char → Option Char → List Char → List Char
  | .strip, s, _, _ => s
  | .clip, s, last, _ => s ++ last.toList
  | .keep, s, last, breaks => s ++ last.toList ++ breaks

/-- Two line ends at the end, or one that is all, are kept. -/
theorem literalChomp_keep {s : List Char} {a : Char} {r : List Char} (h : s.reverse = a :: r)
    (line : isBreak a = true) (others : ∀ b ∈ r.head?, isBreak b = true) :
    literalChomp s = ['+'] := by
  cases r with
  | nil => simp [literalChomp, h, line]
  | cons b r => simp [literalChomp, h, line, others b rfl]

theorem literalChomp_of_breaks {s : List Char} (lines : ∀ a ∈ s, isBreak a = true) (some : s ≠ []) :
    literalChomp s = ['+'] := by
  obtain ⟨a, r, h⟩ := List.exists_cons_of_ne_nil (List.reverse_ne_nil_iff.mpr some)
  have mem (b : Char) (hb : b ∈ a :: r) : isBreak b = true :=
    lines b (List.mem_reverse.mp (h ▸ hb))
  exact literalChomp_keep h (mem a List.mem_cons_self) fun b hb =>
    mem b (List.mem_cons_of_mem a (List.mem_of_head? hb))

/-- The header tells to keep what the text has. -/
theorem exists_chomping {lead t ends bs : List Char} {b : Char} (trimmed : IsTrimmed t)
    (behind : ∀ a ∈ ends, isBreak a = true) (h : (ends = [] ∧ bs = []) ∨ ends = b :: bs) :
    ∃ ch, (literalChomp (lead ++ (t ++ ends)), ch) ∈
      [(['-'], Chomping.strip), ([], .clip), (['+'], .keep)] ∧
      ch.kept (lead ++ t) (some b) bs = lead ++ (t ++ ends) := by
  obtain ⟨z, hz⟩ := Option.isSome_iff_exists.mp (List.getLast?_isSome.mpr trimmed.nonempty)
  have noBreak := trimmed.last z hz
  obtain ⟨t, rfl⟩ := List.getLast?_eq_some_iff.mp hz
  rcases h with ⟨rfl, rfl⟩ | rfl
  · exact ⟨.strip, by simp [literalChomp, noBreak], by simp [Chomping.kept]⟩
  · cases bs with
    | nil =>
      have line := behind b List.mem_cons_self
      exact ⟨.clip, by simp [literalChomp, noBreak, line], by simp [Chomping.kept]⟩
    | cons b' bs =>
      obtain ⟨x, r, hr⟩ := List.exists_cons_of_ne_nil
        (List.reverse_ne_nil_iff.mpr (List.cons_ne_nil b' bs))
      have mem (a : Char) (ha : a ∈ x :: (r ++ [b])) : isBreak a = true := by
        refine behind a ?_
        rwa [← List.mem_reverse, List.reverse_cons, hr]
      have whole : (lead ++ (t ++ [z] ++ b :: b' :: bs)).reverse =
          x :: (r ++ [b] ++ (lead ++ (t ++ [z])).reverse) := by
        rw [← List.append_assoc, List.reverse_append, List.reverse_cons, hr]
        simp
      refine ⟨.keep, ?_, by simp [Chomping.kept]⟩
      have second : ∀ a ∈ (r ++ [b] ++ (lead ++ (t ++ [z])).reverse).head?, isBreak a = true := by
        intro a ha
        cases r <;> simp_all
      rw [literalChomp_keep whole (mem x List.mem_cons_self) second]
      simp

theorem Cursor.blankLine?_eq (line : c.rest.head? = some '\n') : c.blankLine? = some c.next := by
  obtain ⟨r, hr⟩ := List.head?_eq_some_iff.mp line
  have none : c.takeWhile isGap = ([], c) :=
    Cursor.takeWhile_eq (Cursor.passes_nil c) (List.forall_mem_nil _) fun a ha => by
      rw [line] at ha
      obtain rfl := Option.some.inj ha
      decide
  simp [Cursor.blankLine?, none, Cursor.atLineEnd, hr, isBreak]

section

variable {indent : Int} {ch : Chomping} {column reached : Nat} {last : Option Char}
  {lead breaks s : List Char} {c₀ : Cursor}

/-- A block with its column in the header. -/
theorem blockScalar_hinted (header : blockHeader? c = some (ch, some 2, c₀))
    (line : c₀.rest.head? = some '\n') (deeper : (max indent 0).toNat + 2 = column)
    (start : emptyLines (some column) c₀.next.rest.length 0 [] c₀.next = some (reached, lead, m))
    (lines : blockLines false column m.rest.length none false lead m = some (s, last, breaks, e)) :
    blockScalar false indent c = some (ch.kept s last breaks, e) := by
  simp only [blockScalar, header, Cursor.blankLine?_eq line, deeper, start, lines,
    Option.bind_eq_bind, Option.bind_some]
  cases ch <;> rfl

/-- A block whose column its first line tells. -/
theorem blockScalar_unhinted (header : blockHeader? c = some (ch, none, c₀))
    (line : c₀.rest.head? = some '\n') (deeper : max reached (max (indent + 1) 1).toNat = column)
    (start : emptyLines none c₀.next.rest.length 0 [] c₀.next = some (reached, lead, m))
    (lines : blockLines false column m.rest.length none false lead m = some (s, last, breaks, e)) :
    blockScalar false indent c = some (ch.kept s last breaks, e) := by
  simp only [blockScalar, header, Cursor.blankLine?_eq line, deeper, start, lines,
    Option.bind_eq_bind, Option.bind_some]
  cases ch <;> rfl

end

/-- Behind the header a line begins. -/
theorem exists_header {header u : List Char} (h : c.Passes (header ++ '\n' :: u) e) :
    ∃ c₀, c.Passes header c₀ ∧ c₀.rest.head? = some '\n' ∧ c₀.next.Passes u e ∧
      c₀.next.column = 0 := by
  obtain ⟨c₀, header, tail⟩ := Cursor.passes_append_iff.mp h
  obtain ⟨rest, lines⟩ := tail.cons
  refine ⟨c₀, header, by rw [rest]; rfl, lines, ?_⟩
  rw [Cursor.column_next rest]
  rfl

theorem literalHint_hinted {s : List Char}
    (h : (s.head?.any fun a => isSpace a || isBreak a) = true) :
    (literalHint s, some 2) ∈ [([], none), (['2'], some 2)] := by simp [literalHint, h]

theorem literalHint_unhinted {s : List Char}
    (h : (s.head?.any fun a => isSpace a || isBreak a) = false) :
    (literalHint s, none) ∈ [([], none), (['2'], some 2)] := by simp [literalHint, h]

/-- A text that needs no hint begins with a word. -/
theorem solid_of_unhinted {s : List Char} (holds : literalHolds s = true)
    (h : (s.head?.any fun a => isSpace a || isBreak a) = false) : Solid s := by
  intro a ha
  simp only [literalHolds, isTame, Bool.and_eq_true, List.all_eq_true] at holds
  have shown : isPrintable a = true := holds.1.2 a (List.mem_of_head? ha)
  rw [Option.mem_def] at ha
  rw [ha, Option.any_some, Bool.or_eq_false_iff] at h
  refine isSolid_of_isPrintable shown h.2 ?_
  rintro rfl
  exact Bool.noConfusion h.1

/-- A text that consists of line ends is read as it is. -/
theorem blockScalar_of_breaks {s : List Char} {indent column d : Nat} (deeper : indent + 2 = column)
    (lines : ∀ a ∈ s, isBreak a = true) (some : s ≠ [])
    (h : c.Passes
      (literalHint s ++ literalChomp s ++ '\n' :: (literalLines column s ++ spaces d)) e)
    (outside : d < column) (solid : Solid e.rest) :
    blockScalar false (indent : Int) c = .some (s, e) := by
  obtain ⟨z, hz⟩ := Option.isSome_iff_exists.mp (List.getLast?_isSome.mpr some)
  have ends : isBreak z = true := lines z (List.mem_of_getLast? hz)
  have written : literalLines column s = s := by
    have same : literalFrom column true ([] ++ s) = [] ++ s :=
      literalFrom_append_breaks lines true []
    simpa [literalLines, hz, ends] using same
  have hinted : (s.head?.any fun a => isSpace a || isBreak a) = true := by
    obtain ⟨a, r, rfl⟩ := List.exists_cons_of_ne_nil some
    simp [lines a List.mem_cons_self]
  rw [written] at h
  obtain ⟨c₀, header, line, body, begins⟩ := exists_header h
  have place : e.column = d := body.column_of_lines lines begins
  obtain ⟨reached, start⟩ : ∃ reached,
      emptyLines (.some column) c₀.next.rest.length 0 [] c₀.next = .some (reached, [] ++ s, e) :=
    exists_emptyLines lines body (place ▸ outside.le)
      (fun a ha => ((isSolid_iff a).mp (solid a ha)).2) (fun _ => solid)
      (by rw [body.length_rest]; simp [spaces])
  have chomped : (literalChomp s, Chomping.keep) ∈
      [(['-'], Chomping.strip), ([], .clip), (['+'], .keep)] := by
    rw [literalChomp_of_breaks lines some]
    simp
  exact blockScalar_hinted (blockHeader?_eq (literalHint_hinted hinted) chomped header line) line
    (by omega) start (blockLines_over (by omega))

/-- A literal block is read as the text that is written. -/
theorem blockScalar_literal {s : List Char} {indent column d : Nat} (deeper : indent + 2 = column)
    (holds : literalHolds s = true) (some : s ≠ [])
    (h : c.Passes
      (literalHint s ++ literalChomp s ++ '\n' :: (literalLines column s ++ spaces d)) e)
    (outside : d < column) (solid : Solid e.rest) :
    blockScalar false (indent : Int) c = .some (s, e) := by
  rcases exists_trimmed s with lines | ⟨lead, t, ends, rfl, trimmed, before, behind⟩
  · exact blockScalar_of_breaks deeper lines some h outside solid
  obtain ⟨b, bs, written, lines, shape⟩ : ∃ b bs, literalLines column _ = _ ∧ _ :=
    exists_literalLines trimmed before behind
  obtain ⟨ch, chomped, kept⟩ := exists_chomping trimmed behind shape
  rw [written] at h
  obtain ⟨c₀, header, line, body, begins⟩ := exists_header h
  rw [List.append_assoc, List.append_assoc (literalFrom column false t)] at body
  obtain ⟨m, ahead, tail⟩ := Cursor.passes_append_iff.mp body
  have place : m.column = column := ahead.column_of_lines before begins
  have first : m.rest.head? = t.head? := by
    rw [tail.rest, List.append_assoc, literalFrom_head? trimmed]
  have noBreak : ∀ a ∈ m.rest.head?, isBreak a = false := first ▸ trimmed.first
  have enough : t.length < m.rest.length := by
    have written := length_le_literalFrom column false t
    rw [tail.length_rest, List.length_append, List.length_append, List.length_cons]
    omega
  have read : blockLines false column m.rest.length none false lead m =
      .some (lead ++ t, .some b, bs, e) :=
    blockLines_eq trimmed place lines tail outside solid enough
  rw [← kept]
  cases hinted : (lead ++ (t ++ ends)).head?.any fun a => isSpace a || isBreak a with
  | true =>
    obtain ⟨reached, start⟩ : ∃ reached,
        emptyLines (.some column) c₀.next.rest.length 0 [] c₀.next =
        .some (reached, [] ++ lead, m) :=
      exists_emptyLines before ahead place.le noBreak (fun less => absurd place less.ne)
        (by rw [ahead.length_rest]; simp [spaces])
    exact blockScalar_hinted (blockHeader?_eq (literalHint_hinted hinted) chomped header line) line
      (by omega) start read
  | false =>
    -- the first line tells the column, so nothing stands before it
    obtain rfl : lead = [] := by
      cases lead with
      | nil => rfl
      | cons a lead => simp [before a List.mem_cons_self] at hinted
    have word : Solid m.rest := by
      have whole := solid_of_unhinted holds hinted
      intro a ha
      rw [first, Option.mem_def] at ha
      exact whole a (by simp [List.head?_append, ha])
    have some : m.rest ≠ [] := List.length_pos_iff.mp (Nat.zero_lt_of_lt enough)
    exact blockScalar_unhinted (blockHeader?_eq (literalHint_unhinted hinted) chomped header line)
      line (by omega) (emptyLines_first ahead word some) read

end Misuse.Yaml
