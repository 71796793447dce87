import Misuse.Proofs.Yaml.Passage
import Misuse.Yaml.ScalarLexer

/-!
# Reading plain scalars back

What lies between the pieces of a scalar is gathered into a fold (`foldGap_spaces`,
`foldGap_breaks`). A text of words with single gaps between them is read back as it is
(`plainPieces_eq`), in front of a colon as well as at the end of a line, and every text that a plain
scalar may hold is such a text (`isPlain_of_plainHolds`).
-/

namespace Misuse.Yaml

variable {c e : Cursor} {least fuel : Nat}

/-! ## Gaps -/

theorem foldGap_of_solid {broken : Bool} {f : Fold} (solid : Solid c.rest) :
    foldGap least fuel broken f c = some (f, c) := by
  cases fuel with
  | zero => rfl
  | succ fuel =>
    rw [foldGap]
    cases h : c.rest with
    | nil => rfl
    | cons a r =>
      obtain ⟨gap, line⟩ := (isSolid_iff a).mp (solid a (by rw [h]; rfl))
      simp [gap, line]

/-- On one line the spaces are kept. -/
theorem foldGap_spaces {n : Nat} {f : Fold} (h : c.Passes (spaces n) e) (solid : Solid e.rest)
    (enough : n ≤ fuel) :
    foldGap least fuel false f c = some ({ f with spaces := f.spaces ++ spaces n }, e) := by
  induction n generalizing c f fuel with
  | zero =>
    obtain rfl := Cursor.passes_nil_iff.mp h
    rw [foldGap_of_solid solid, show spaces 0 = [] from rfl, List.append_nil]
  | succ n ih =>
    obtain ⟨fuel, rfl⟩ := Nat.exists_eq_add_one.mpr (Nat.zero_lt_of_lt enough)
    obtain ⟨rest, tail⟩ := h.cons
    rw [foldGap, rest]
    simp only [isBreak_space, isGap_space, Bool.false_eq_true, ↓reduceIte]
    rw [ih tail (Nat.le_of_succ_le_succ enough), List.append_assoc]
    rfl

/-- At the beginning of a line they are not. -/
theorem foldGap_indentation {n : Nat} {f : Fold} (h : c.Passes (spaces n) e) (solid : Solid e.rest)
    (enough : n ≤ fuel) : foldGap least fuel true f c = some (f, e) := by
  induction n generalizing c fuel with
  | zero =>
    obtain rfl := Cursor.passes_nil_iff.mp h
    exact foldGap_of_solid solid
  | succ n ih =>
    obtain ⟨fuel, rfl⟩ := Nat.exists_eq_add_one.mpr (Nat.zero_lt_of_lt enough)
    obtain ⟨rest, tail⟩ := h.cons
    have noTab : (' ' == '\t') = false := by decide
    rw [foldGap, rest]
    simp only [isBreak_space, isGap_space, noTab, Bool.false_and, Bool.false_eq_true, ↓reduceIte]
    exact ih tail (Nat.le_of_succ_le_succ enough)

/-- Line ends behind another one. -/
theorem foldGap_further {bs : List Char} {n : Nat} {f : Fold} (lines : ∀ b ∈ bs, isBreak b = true)
    (h : c.Passes (bs ++ spaces n) e) (solid : Solid e.rest) (enough : bs.length + n ≤ fuel) :
    foldGap least fuel true f c = some ({ f with further := f.further ++ bs }, e) := by
  induction bs generalizing c f fuel with
  | nil => rw [foldGap_indentation h solid (by simpa using enough), List.append_nil]
  | cons b bs ih =>
    rw [List.length_cons] at enough
    obtain ⟨fuel, rfl⟩ : ∃ k, fuel = k + 1 := ⟨fuel - 1, by omega⟩
    obtain ⟨line, lines⟩ := List.forall_mem_cons.mp lines
    obtain ⟨rest, tail⟩ := h.cons
    rw [foldGap, rest]
    simp only [line, ↓reduceIte]
    rw [ih lines tail (by omega), List.append_assoc]
    rfl

theorem foldGap_breaks {b : Char} {bs : List Char} {n : Nat} (line : isBreak b = true)
    (lines : ∀ b ∈ bs, isBreak b = true) (h : c.Passes (b :: bs ++ spaces n) e)
    (solid : Solid e.rest) (enough : bs.length + n < fuel) :
    foldGap least fuel false .none c = some (⟨[], some b, bs⟩, e) := by
  obtain ⟨fuel, rfl⟩ : ∃ k, fuel = k + 1 := ⟨fuel - 1, by omega⟩
  obtain ⟨rest, tail⟩ := h.cons
  rw [foldGap, rest]
  simp only [line, Bool.false_eq_true, ↓reduceIte]
  rw [foldGap_further lines tail solid (by omega)]
  rfl

/-! ## Words -/

/-- Words with spaces between them, in which nothing means anything else. -/
structure IsPlain (s : List Char) : Prop where
  nonempty : s ≠ []
  first : Solid s
  last : s.getLast? ≠ some ' '
  spaced : ∀ a ∈ s, isSolid a = true ∨ a = ' '
  unmarked : hasMark true s = false

/-- What ends a plain scalar, as far as it is passed over: a colon, or the end of its line and what
indents the next one. The flag tells a line end. -/
inductive PlainEnd (least : Nat) : List Char → List Char → Bool → Prop
  | colon (r : List Char) (ends : endsWord r = true) : PlainEnd least [] (':' :: r) false
  | line (d : Nat) (r : List Char) (outside : d < least) (solid : Solid r) :
    PlainEnd least ('\n' :: spaces d) r true

/-- A piece ends here. -/
def StopsPiece : List Char → Prop
  | [] => True
  | a :: r => isSolid a = false ∨ (a = ':' ∧ endsWord r = true)

theorem PlainEnd.stopsPiece {g r : List Char} {crosses : Bool} (h : PlainEnd least g r crosses) :
    StopsPiece (g ++ r) := by
  cases h with
  | colon r ends => exact .inr ⟨rfl, ends⟩
  | line d r outside solid => exact .inl (by decide)

theorem plainPiece_eq {w : List Char} (h : c.Passes w e) (solid : ∀ a ∈ w, isSolid a = true)
    (noColon : w.getLast? ≠ some ':') (stops : StopsPiece e.rest) (enough : w.length ≤ fuel) :
    plainPiece false fuel c = some (w, e) := by
  induction w generalizing c fuel with
  | nil =>
    obtain rfl := Cursor.passes_nil_iff.mp h
    cases fuel with
    | zero => rfl
    | succ fuel =>
      rw [plainPiece]
      cases hr : e.rest with
      | nil => rfl
      | cons a r =>
        rw [hr] at stops
        have next : e.next.rest = r := by rw [Cursor.rest_next, hr, List.tail_cons]
        rcases stops with notSolid | ⟨rfl, ends⟩
        · have ends : e.atWordEnd = true := by
            rw [Cursor.atWordEnd_eq, hr, endsWord]
            simpa [isSolid, Bool.or_eq_true, imp_iff_not_or] using notSolid
          simp [ends]
        · simp [Cursor.atWordEnd_eq, hr, next, ends]
  | cons a w ih =>
    obtain ⟨fuel, rfl⟩ := Nat.exists_eq_add_one.mpr (Nat.zero_lt_of_lt enough)
    obtain ⟨first, solid⟩ := List.forall_mem_cons.mp solid
    obtain ⟨rest, tail⟩ := h.cons
    have inWord : c.atWordEnd = false := by
      rw [Cursor.atWordEnd_eq, rest, endsWord_cons first]
    -- a colon stands before another character of the word
    have goesOn : (a == ':' && c.next.atWordEnd) = false := by
      cases w with
      | nil =>
        have notColon : a ≠ ':' := by simpa using noColon
        simp [notColon]
      | cons b w =>
        have second := (List.forall_mem_cons.mp solid).1
        rw [Cursor.atWordEnd_eq, tail.rest, List.cons_append, endsWord_cons second, Bool.and_false]
    have later : w.getLast? ≠ some ':' := by
      cases w with
      | nil => simp
      | cons b w => simpa using noColon
    rw [plainPiece, rest]
    simp only [inWord, goesOn, Bool.false_and, Bool.or_false, Bool.false_eq_true, ↓reduceIte]
    rw [ih tail solid later (Nat.le_of_succ_le_succ enough)]
    rfl

/-! ## Words in a text -/

/-- Marks of a later part, behind a gap or not, are marks of the whole. -/
theorem hasMark_of_append {s t : List Char} {b : Bool} (h : hasMark b (s ++ t) = false) :
    hasMark ((s.getLast?.map fun a => isGap a || isBreak a).getD b) t = false := by
  induction s generalizing b with
  | nil => exact h
  | cons a s ih =>
    rw [List.cons_append, hasMark, Bool.or_eq_false_iff] at h
    cases s with
    | nil => exact h.2
    | cons a' s =>
      obtain ⟨z, hz⟩ :=
        Option.isSome_iff_exists.mp (List.getLast?_isSome.mpr (List.cons_ne_nil a' s))
      have later := ih h.2
      rw [hz] at later
      rwa [List.getLast?_cons_cons, hz]

theorem getLast?_ne_colon {w t : List Char} {b : Bool} (h : hasMark b (w ++ t) = false)
    (ends : endsWord t = true) : w.getLast? ≠ some ':' := by
  intro last
  obtain ⟨v, rfl⟩ := List.getLast?_eq_some_iff.mp last
  rw [List.append_assoc] at h
  have marked := hasMark_of_append h
  simp [hasMark, ends] at marked

theorem exists_spaces {g : List Char} (blank : ∀ a ∈ g, a = ' ') (more : g ≠ []) :
    ∃ n, g = spaces (n + 1) := by
  refine ⟨g.length - 1, ?_⟩
  rw [Nat.sub_add_cancel (List.length_pos_iff.mpr more)]
  exact List.eq_replicate_iff.mpr ⟨rfl, blank⟩

theorem IsPlain.unbroken {s : List Char} (h : IsPlain s) : ∀ a ∈ s, isBreak a = false := by
  intro a ha
  rcases h.spaced a ha with solid | rfl
  · exact ((isSolid_iff a).mp solid).2
  · exact isBreak_space

theorem IsPlain.blank {w g t : List Char} (h : IsPlain (w ++ (g ++ t)))
    (gap : ∀ a ∈ g, isSolid a = false) : ∀ a ∈ g, a = ' ' := by
  intro a ha
  have spaced := h.spaced a (List.mem_append_right w (List.mem_append_left t ha))
  rw [gap a ha] at spaced
  exact spaced.resolve_left Bool.false_ne_true

theorem IsPlain.tail {w g t : List Char} (h : IsPlain (w ++ (g ++ t))) (more : g ≠ [])
    (gap : ∀ a ∈ g, isSolid a = false) (first : Solid t) : IsPlain t := by
  obtain ⟨n, hn⟩ := exists_spaces (h.blank gap) more
  have lastGap : g.getLast? = some ' ' := by
    rw [hn, spaces, List.getLast?_replicate, if_neg (Nat.succ_ne_zero n)]
  have nonempty : t ≠ [] := by
    rintro rfl
    apply h.last
    rw [List.append_nil, List.getLast?_append, lastGap]
    rfl
  refine ⟨nonempty, first, ?_, fun a ha => h.spaced a ?_, ?_⟩
  · intro last
    apply h.last
    rw [List.getLast?_append, List.getLast?_append, last]
    rfl
  · exact List.mem_append_right w (List.mem_append_right g ha)
  · have unmarked := h.unmarked
    rw [← List.append_assoc] at unmarked
    simpa [List.getLast?_append, lastGap, isGap_space] using hasMark_of_append unmarked

theorem IsPlain.head?_ne_hash {s : List Char} (h : IsPlain s) (u : List Char) :
    (s ++ u).head? ≠ some '#' := by
  cases s with
  | nil => exact absurd rfl h.nonempty
  | cons a s =>
    intro hash
    obtain rfl : a = '#' := by simpa using hash
    simpa [hasMark] using h.unmarked

theorem IsPlain.word_ne_nil {w g t : List Char} (h : IsPlain (w ++ (g ++ t))) (more : g ≠ [])
    (gap : ∀ a ∈ g, isSolid a = false) : w ≠ [] := by
  rintro rfl
  obtain ⟨a, g, rfl⟩ := List.exists_cons_of_ne_nil more
  have solid : isSolid a = true := h.first a rfl
  rw [gap a List.mem_cons_self] at solid
  exact Bool.false_ne_true solid

/-! ## Plain scalars -/

/-- The first word of a plain text is a piece. -/
theorem IsPlain.plainPiece {w t : List Char} (h : IsPlain (w ++ t)) (ends : endsWord t = true)
    (word : c.Passes w e) (solid : ∀ a ∈ w, isSolid a = true) (stops : StopsPiece e.rest) :
    plainPiece false c.rest.length c = some (w, e) :=
  plainPiece_eq word solid (getLast?_ne_colon h.unmarked ends) stops
    (by rw [word.length_rest]; exact Nat.le_add_right _ _)

theorem IsPlain.opens {s u : List Char} (h : IsPlain s) (rest : c.rest = s ++ u)
    (noMark : c.atDocumentMark = false) :
    (c.atDocumentMark || decide (c.rest.head? = some '#')) = false := by
  rw [noMark, Bool.false_or, rest]
  exact decide_eq_false (h.head?_ne_hash u)

/-- The last word, and what ends the scalar. -/
theorem plainPieces_word {w g : List Char} {m : Cursor} {crosses : Bool} {f : Fold}
    (plain : IsPlain w) (solid : ∀ a ∈ w, isSolid a = true) (word : c.Passes w m)
    (tail : m.Passes g e) (ends : PlainEnd least g e.rest crosses)
    (noMark : c.atDocumentMark = false) :
    plainPieces false least (fuel + 1) f c = some (f.text ++ w, crosses, e) := by
  have piece : Yaml.plainPiece false c.rest.length c = some (w, m) := by
    refine IsPlain.plainPiece (t := []) ?_ rfl word solid (tail.rest ▸ ends.stopsPiece)
    rwa [List.append_nil]
  have shown : w.isEmpty = false := by simpa using plain.nonempty
  rw [plainPieces, plain.opens word.rest noMark]
  simp only [Bool.false_eq_true, ↓reduceIte, piece, Option.bind_eq_bind, Option.bind_some, shown,
    Bool.false_and]
  generalize hr : e.rest = r at ends
  cases ends with
  | colon r ends =>
    obtain rfl := Cursor.passes_nil_iff.mp tail
    simp [Cursor.atWordEnd_eq, hr, endsWord, isGap, isBreak]
  | line d r outside solid =>
    have rest : m.rest = '\n' :: (spaces d ++ r) := hr ▸ tail.rest
    have gap : foldGap least m.rest.length false .none m = some (⟨[], some '\n', []⟩, e) := by
      refine foldGap_breaks isBreak_newline (List.forall_mem_nil _) tail (hr ▸ solid) ?_
      simp only [rest, List.length_cons, List.length_append, spaces, List.length_replicate,
        List.length_nil]
      omega
    have column : e.column = d :=
      Cursor.Passes.column_of_breaks tail (List.forall_mem_singleton.mpr isBreak_newline)
        (List.cons_ne_nil _ [])
    have wordEnd : m.atWordEnd = true := by rw [Cursor.atWordEnd_eq, rest]; rfl
    have more : m.rest.isEmpty = false := by rw [rest]; rfl
    simp [more, wordEnd, gap, column, outside, Fold.crossesLine]

/-- A word and the spaces behind it. -/
theorem plainPieces_gap {w t u : List Char} {n : Nat} {m : Cursor} {f : Fold}
    (plain : IsPlain (w ++ (spaces (n + 1) ++ t))) (solid : ∀ a ∈ w, isSolid a = true)
    (word : c.Passes w m) (between : m.Passes (spaces (n + 1)) e) (rest : e.rest = t ++ u)
    (first : Solid t) (inside : least ≤ e.column) (noMark : c.atDocumentMark = false) :
    plainPieces false least (fuel + 1) f c =
      (plainPieces false least fuel ⟨spaces (n + 1), none, []⟩ e).map fun read =>
        (f.text ++ w ++ read.1, read.2) := by
  have gaps : ∀ a ∈ spaces (n + 1), isSolid a = false := fun a ha => mem_spaces ha ▸ by decide
  have piece : Yaml.plainPiece false c.rest.length c = some (w, m) :=
    plain.plainPiece rfl word solid (between.rest ▸ .inl (by decide))
  have shown : w.isEmpty = false := by
    simpa using plain.word_ne_nil (List.cons_ne_nil _ _) gaps
  have solid' : Solid e.rest := by
    obtain ⟨a, t, rfl⟩ :=
      List.exists_cons_of_ne_nil (plain.tail (List.cons_ne_nil _ _) gaps first).nonempty
    exact rest ▸ solid_cons (first a rfl) _
  have fold : foldGap least m.rest.length false .none m = some (⟨spaces (n + 1), none, []⟩, e) :=
    foldGap_spaces between solid' (by rw [between.length_rest]; simp [spaces])
  have here : m.atWordEnd = true := by rw [Cursor.atWordEnd_eq, between.rest]; rfl
  have more : m.rest.isEmpty = false := by rw [between.rest]; rfl
  have inside' : ¬ e.column < least := Nat.not_lt.mpr inside
  have text : c.rest = w ++ (spaces (n + 1) ++ t) ++ u := by
    rw [word.rest, between.rest, rest, List.append_assoc, List.append_assoc]
  rw [plainPieces, plain.opens text noMark]
  simp only [Bool.false_eq_true, ↓reduceIte, piece, Option.bind_eq_bind, Option.bind_some, shown,
    more, here, fold, inside', Bool.not_true, Bool.or_self, Bool.not_false, Bool.true_and,
    decide_false]
  cases plainPieces false least fuel ⟨spaces (n + 1), none, []⟩ e <;> rfl

/-- Written plainly, a text is read as it is. -/
theorem plainPieces_eq {s g : List Char} {crosses : Bool} {f : Fold} (plain : IsPlain s)
    (h : c.Passes (s ++ g) e) (ends : PlainEnd least g e.rest crosses)
    (noMark : c.atDocumentMark = false) (inside : least ≤ c.column + 1) (enough : s.length < fuel) :
    plainPieces false least fuel f c = some (f.text ++ s, crosses, e) := by
  induction s using words_induction isSolid generalizing c f fuel with
  | word w solid =>
    obtain ⟨fuel, rfl⟩ := Nat.exists_eq_add_one.mpr (Nat.zero_lt_of_lt enough)
    obtain ⟨m, word, tail⟩ := Cursor.passes_append_iff.mp h
    exact plainPieces_word plain solid word tail ends noMark
  | gap w gap t solid more gaps first ih =>
    obtain ⟨fuel, rfl⟩ := Nat.exists_eq_add_one.mpr (Nat.zero_lt_of_lt enough)
    have later := plain.tail more gaps first
    have wide : 0 < w.length := List.length_pos_iff.mpr (plain.word_ne_nil more gaps)
    obtain ⟨n, rfl⟩ := exists_spaces (plain.blank gaps) more
    rw [List.append_assoc, List.append_assoc] at h
    obtain ⟨m, word, tail⟩ := Cursor.passes_append_iff.mp h
    obtain ⟨m', between, tail⟩ := Cursor.passes_append_iff.mp tail
    have column : m'.column = c.column + w.length + (n + 1) := by
      rw [between.column_of_unbroken fun a ha => mem_spaces ha ▸ isBreak_space,
        word.column_of_unbroken fun a ha => ((isSolid_iff a).mp (solid a ha)).2, spaces,
        List.length_replicate]
    simp only [List.length_append] at enough
    rw [plainPieces_gap plain solid word between (by rw [tail.rest, List.append_assoc]) first
        (by omega) noMark,
      ih later tail (Cursor.atDocumentMark_of_column (by omega)) (by omega) (by omega)]
    simp [Fold.text]

/-! ## Texts that may be plain -/

theorem isPlain_of_plainHolds {s : List Char} (h : plainHolds s = true) (nonempty : s ≠ []) :
    IsPlain s := by
  simp only [plainHolds, singleHolds, isTame, Bool.and_eq_true, Bool.not_eq_true',
    List.any_eq_false, List.all_eq_true] at h
  obtain ⟨⟨⟨⟨⟨⟨⟨⟨-, printable⟩, -⟩, unbroken⟩, first⟩, last⟩, -⟩, -⟩, unmarked⟩ := h
  have spaced : ∀ a ∈ s, isSolid a = true ∨ a = ' ' := by
    intro a ha
    by_cases space : a = ' '
    · exact .inr space
    · exact .inl (isSolid_of_isPrintable (printable a ha) (by simpa using unbroken a ha) space)
  refine ⟨nonempty, fun a ha => ?_, fun ends => ?_, spaced, unmarked⟩
  · refine (spaced a (List.mem_of_head? ha)).resolve_right ?_
    rintro rfl
    simp [Option.mem_def.mp ha, isSpace] at first
  · simp [ends, isSpace] at last

end Misuse.Yaml
