import Mathlib.Data.List.TakeWhile
import Misuse.Yaml.Printer
import Misuse.Yaml.Cursor

/-!
# Passing over text

A cursor passes over a text if the text comes next, and is then behind it (`Cursor.Passes`). Passing
over one text and then another is passing over both (`passes_append_iff`), and tells the line and
the column.
-/

namespace Misuse.Yaml

/-- Neither a gap nor a line end. -/
def isSolid (a : Char) : Bool := !isGap a && !isBreak a

/-- The text does not begin with a gap or a line end. -/
def Solid (s : List Char) : Prop := ∀ a ∈ s.head?, isSolid a = true

theorem isSolid_iff (a : Char) : isSolid a = true ↔ isGap a = false ∧ isBreak a = false := by
  simp [isSolid]

theorem isPrintable_tab : isPrintable '\t' = false := by decide

theorem isSolid_of_isPrintable {a : Char} (printable : isPrintable a = true)
    (noBreak : isBreak a = false) (noSpace : a ≠ ' ') : isSolid a = true := by
  have noTab : a ≠ '\t' := by
    rintro rfl
    exact Bool.false_ne_true (isPrintable_tab ▸ printable)
  simp [isSolid, isGap, noSpace, noTab, noBreak]

theorem solid_cons {a : Char} (h : isSolid a = true) (s : List Char) : Solid (a :: s) := by
  intro b hb
  rwa [← Option.some.inj hb]

theorem endsWord_eq_false_iff (s : List Char) : endsWord s = false ↔ s ≠ [] ∧ Solid s := by
  cases s with
  | nil => simp [endsWord]
  | cons a s => simp [endsWord, Solid, isSolid]

theorem endsWord_cons {a : Char} (h : isSolid a = true) (s : List Char) :
    endsWord (a :: s) = false :=
  (endsWord_eq_false_iff _).mpr ⟨List.cons_ne_nil _ _, solid_cons h s⟩

theorem isBreak_space : isBreak ' ' = false := by decide

theorem isGap_space : isGap ' ' = true := by decide

theorem isPrintable_space : isPrintable ' ' = true := by decide

theorem isBreak_newline : isBreak '\n' = true := by decide

theorem isPrintable_newline : isPrintable '\n' = true := by decide

theorem mem_spaces {a : Char} {n : Nat} (h : a ∈ spaces n) : a = ' ' := List.eq_of_mem_replicate h

theorem spaces_shown (n : Nat) : ∀ a ∈ spaces n, isPrintable a = true := fun _ ha =>
  mem_spaces ha ▸ isPrintable_space

theorem spaces_succ (n : Nat) : spaces (n + 1) = ' ' :: spaces n := rfl

/-! ## Words and what lies between them -/

/-- A text is one word, or a word, a gap and a shorter text that begins with a word or is at its
end. -/
theorem words_induction (p : Char → Bool) {motive : List Char → Prop}
    (word : ∀ w, (∀ a ∈ w, p a = true) → motive w)
    (gap : ∀ w g s, (∀ a ∈ w, p a = true) → g ≠ [] → (∀ a ∈ g, p a = false) →
      (∀ a ∈ s.head?, p a = true) → motive s → motive (w ++ (g ++ s)))
    (s : List Char) : motive s := by
  induction hn : s.length using Nat.strongRecOn generalizing s with
  | ind n ih =>
    let w := s.takeWhile p
    let tail := s.dropWhile p
    let g := tail.takeWhile fun a => !p a
    let rest := tail.dropWhile fun a => !p a
    have whole : w ++ (g ++ rest) = s := by
      rw [List.takeWhile_append_dropWhile, List.takeWhile_append_dropWhile]
    have hw : ∀ a ∈ w, p a = true := fun a ha => List.mem_takeWhile_imp ha
    have hg : ∀ a ∈ g, p a = false := fun a ha => by simpa using List.mem_takeWhile_imp ha
    by_cases last : tail = []
    · have one : s = w := by
        rw [← whole]
        simp [g, rest, last]
      rw [one]
      exact word w hw
    · -- what comes after the word begins with a gap, so the rest is shorter
      obtain ⟨a, tail', ht⟩ := List.exists_cons_of_ne_nil last
      have first : p a = false := by
        have head := List.head?_dropWhile_not p s
        rw [show s.dropWhile p = a :: tail' from ht] at head
        simpa using head
      have more : g ≠ [] := by simp [g, ht, first]
      have shorter : rest.length < n := by
        have lengths := congrArg List.length whole
        have positive := List.length_pos_iff.mpr more
        rw [List.length_append, List.length_append] at lengths
        omega
      have starts : ∀ b ∈ rest.head?, p b = true := by
        intro b hb
        have head := List.head?_dropWhile_not (fun a => !p a) tail
        rw [show tail.dropWhile (fun a => !p a) = rest from rfl, hb] at head
        simpa using head
      rw [← whole]
      exact gap w g rest hw more hg starts (ih rest.length shorter rest rfl)

namespace Cursor

/-! ## One character -/

theorem rest_next (c : Cursor) : c.next.rest = c.rest.tail := by
  unfold next
  split
  next h => rw [h, List.tail_nil]
  next a r h => split <;> rw [h, List.tail_cons]

theorem column_next {c : Cursor} {a : Char} {r : List Char} (h : c.rest = a :: r) :
    c.next.column = if isBreak a then 0 else c.column + 1 := by
  simp only [next, h]
  split <;> rfl

theorem line_next {c : Cursor} {a : Char} {r : List Char} (h : c.rest = a :: r) :
    c.next.line = if isBreak a then c.line + 1 else c.line := by
  simp only [next, h]
  split <;> rfl

theorem offset_next_le (c : Cursor) : c.next.offset ≤ c.offset + 4 := by
  unfold next
  split
  · omega
  · rename_i a _ _
    have size := a.utf8Size_le_four
    split <;> exact Nat.add_le_add_left size _

/-! ## Texts -/

/-- The text comes next, and the other cursor is behind it. -/
def Passes (c : Cursor) (s : List Char) (e : Cursor) : Prop :=
  c.rest = s ++ e.rest ∧ e = c.skip s.length

theorem rest_skip (c : Cursor) (n : Nat) : (c.skip n).rest = c.rest.drop n := by
  induction n generalizing c with
  | zero => rfl
  | succ n ih => rw [skip, ih, rest_next, List.drop_tail]

theorem skip_add (c : Cursor) (m n : Nat) : c.skip (m + n) = (c.skip m).skip n := by
  induction m generalizing c with
  | zero => rw [Nat.zero_add, skip]
  | succ m ih => rw [Nat.succ_add, skip, ih, skip]

theorem exists_passes {c : Cursor} {s t : List Char} (h : c.rest = s ++ t) :
    ∃ e, c.Passes s e ∧ e.rest = t := by
  have behind : (c.skip s.length).rest = t := by rw [rest_skip, h, List.drop_left]
  exact ⟨c.skip s.length, ⟨by rw [behind, h], rfl⟩, behind⟩

theorem passes_nil (c : Cursor) : c.Passes [] c := ⟨rfl, rfl⟩

variable {c e : Cursor}

theorem Passes.rest {s : List Char} (h : c.Passes s e) : c.rest = s ++ e.rest := h.1

theorem passes_nil_iff : c.Passes [] e ↔ e = c :=
  ⟨fun h => h.2, fun h => h ▸ c.passes_nil⟩

theorem passes_append_iff {s t : List Char} :
    c.Passes (s ++ t) e ↔ ∃ m, c.Passes s m ∧ m.Passes t e := by
  constructor
  · rintro ⟨next, behind⟩
    rw [List.append_assoc] at next
    obtain ⟨m, hm, rest⟩ := exists_passes next
    refine ⟨m, hm, rest, ?_⟩
    rw [behind, List.length_append, skip_add, ← hm.2]
  · rintro ⟨m, ⟨hc, hm⟩, ⟨hr, he⟩⟩
    refine ⟨by rw [hc, hr, List.append_assoc], ?_⟩
    rw [he, hm, List.length_append, skip_add]

theorem Passes.cons {a : Char} {s : List Char} (h : c.Passes (a :: s) e) :
    c.rest = a :: (s ++ e.rest) ∧ c.next.Passes s e := by
  obtain ⟨rest, behind⟩ := h
  refine ⟨rest, ?_, behind⟩
  rw [rest_next, rest]
  rfl

theorem passes_singleton {a : Char} {t : List Char} (h : c.rest = a :: t) :
    c.Passes [a] c.next := by
  refine ⟨?_, rfl⟩
  rw [rest_next, h]
  rfl

theorem Passes.length_rest {s : List Char} (h : c.Passes s e) :
    c.rest.length = s.length + e.rest.length := by
  rw [h.rest, List.length_append]

/-! ## Places -/

/-- The column behind a text. -/
def columnAfter (column : Nat) : List Char → Nat
  | [] => column
  | a :: s => columnAfter (if isBreak a then 0 else column + 1) s

theorem columnAfter_append (column : Nat) (s t : List Char) :
    columnAfter column (s ++ t) = columnAfter (columnAfter column s) t := by
  induction s generalizing column with
  | nil => rfl
  | cons a s ih => exact ih _

/-- On one line each character takes a column. -/
theorem columnAfter_of_unbroken {s : List Char} (unbroken : ∀ a ∈ s, isBreak a = false)
    (column : Nat) : columnAfter column s = column + s.length := by
  induction s generalizing column with
  | nil => rfl
  | cons a s ih =>
    obtain ⟨first, rest⟩ := List.forall_mem_cons.mp unbroken
    rw [columnAfter, first, ih rest, List.length_cons]
    simp only [Bool.false_eq_true, ↓reduceIte]
    omega

/-- A line begins behind a line end. -/
theorem columnAfter_of_breaks {bs : List Char} (lines : ∀ b ∈ bs, isBreak b = true) (some : bs ≠ [])
    (column : Nat) : columnAfter column bs = 0 := by
  induction bs generalizing column with
  | nil => exact absurd rfl some
  | cons b bs ih =>
    obtain ⟨line, lines⟩ := List.forall_mem_cons.mp lines
    rw [columnAfter, if_pos line]
    cases bs with
    | nil => rfl
    | cons b' bs => exact ih lines (List.cons_ne_nil _ _) 0

theorem Passes.column {s : List Char} (h : c.Passes s e) : e.column = columnAfter c.column s := by
  induction s generalizing c with
  | nil => rw [passes_nil_iff.mp h, columnAfter]
  | cons a s ih =>
    obtain ⟨rest, tail⟩ := h.cons
    rw [ih tail, column_next rest, columnAfter]

theorem Passes.column_of_unbroken {s : List Char} (h : c.Passes s e)
    (unbroken : ∀ a ∈ s, isBreak a = false) : e.column = c.column + s.length := by
  rw [h.column, columnAfter_of_unbroken unbroken]

/-- Behind line ends come the spaces of the next line. -/
theorem Passes.column_of_breaks {bs : List Char} {n : Nat} (h : c.Passes (bs ++ spaces n) e)
    (lines : ∀ b ∈ bs, isBreak b = true) (some : bs ≠ []) : e.column = n := by
  have unbroken : ∀ a ∈ spaces n, isBreak a = false := fun a ha => mem_spaces ha ▸ isBreak_space
  rw [h.column, columnAfter_append, columnAfter_of_breaks lines some,
    columnAfter_of_unbroken unbroken, spaces, List.length_replicate, Nat.zero_add]

theorem Passes.column_of_line_end {s : List Char} {b : Char} {n : Nat}
    (h : c.Passes (s ++ (b :: spaces n)) e) (line : isBreak b = true) : e.column = n := by
  obtain ⟨m, -, tail⟩ := passes_append_iff.mp h
  exact column_of_breaks tail (List.forall_mem_singleton.mpr line) (List.cons_ne_nil b [])

theorem Passes.column_of_lines {bs : List Char} {n : Nat} (h : c.Passes (bs ++ spaces n) e)
    (lines : ∀ b ∈ bs, isBreak b = true) (start : c.column = 0) : e.column = n := by
  by_cases some : bs = []
  · subst some
    rw [h.column_of_unbroken fun a ha => mem_spaces ha ▸ isBreak_space, start, List.nil_append,
      spaces, List.length_replicate, Nat.zero_add]
  · exact h.column_of_breaks lines some

theorem Passes.line {s : List Char} (h : c.Passes s e) : e.line = c.line + s.countP isBreak := by
  induction s generalizing c with
  | nil => rw [passes_nil_iff.mp h, List.countP_nil, Nat.add_zero]
  | cons a s ih =>
    obtain ⟨rest, tail⟩ := h.cons
    rw [ih tail, line_next rest, List.countP_cons]
    split <;> omega

theorem Passes.line_lt {s : List Char} {b : Char} (h : c.Passes s e) (hb : b ∈ s)
    (line : isBreak b = true) : c.line < e.line := by
  have counted : 0 < s.countP isBreak := List.countP_pos_iff.mpr ⟨b, hb, line⟩
  rw [h.line]
  omega

theorem offset_skip_le (c : Cursor) (n : Nat) : (c.skip n).offset ≤ c.offset + 4 * n := by
  induction n generalizing c with
  | zero => exact Nat.le_refl _
  | succ n ih =>
    have first := c.offset_next_le
    have rest := ih c.next
    rw [skip]
    omega

theorem Passes.offset_le {s : List Char} (h : c.Passes s e) : e.offset ≤ c.offset + 4 * s.length :=
  h.2 ▸ c.offset_skip_le s.length

/-! ## The ends of words -/

theorem atWordEnd_eq (c : Cursor) : c.atWordEnd = endsWord c.rest := rfl

theorem atDocumentMark_of_column {c : Cursor} (h : c.column ≠ 0) : c.atDocumentMark = false := by
  simp [atDocumentMark, atMark, h]

end Cursor

end Misuse.Yaml
