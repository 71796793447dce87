import Misuse.Proofs.Yaml.Digits
import Misuse.Proofs.Yaml.Words

/-!
# Reading quoted scalars back

Each character of a word is spelled in a way that a piece reads (`Spells`): in double quotes an
escape where one is needed (`spells_doubleChar`), in single quotes a quote twice
(`spells_singleChar`). So any text in double quotes is read as it is (`quoted_double`), and in
single quotes every text that they may hold (`quoted_single`).
-/

namespace Misuse.Yaml

variable {double : Bool} {c e : Cursor} {fuel : Nat}

/-- The quote that closes a scalar. -/
abbrev closing (double : Bool) : Char := if double then '"' else '\''

/-! ## Characters -/

/-- A piece reads the text as the character. -/
def Spells (double : Bool) (a : Char) (text : List Char) : Prop :=
  text ≠ [] ∧ ∀ (c e : Cursor) (fuel : Nat), c.Passes text e →
    quotedPiece double (fuel + 1) c =
      (quotedPiece double fuel e).map fun read => (a :: read.1, read.2)

theorem escape?_letter {a letter : Char} {r : List Char} (rest : c.rest = letter :: r)
    (h : (escapes.find? fun e => e.1 == letter) = some (letter, a)) :
    escape? c = some (a, c.next) := by
  simp only [escape?, rest, h]

theorem ofCode?_toNat (a : Char) : ofCode? a.toNat = some a := by
  have valid : a.toNat.isValidChar := a.valid
  have same := a.ofNat_toNat
  rw [Char.ofNat, dif_pos valid] at same
  rw [ofCode?, dif_pos valid, same]

theorem escape?_code {a mark : Char} {width : Nat}
    (unknown : (escapes.find? fun e => e.1 == mark) = none)
    (digits : codeDigits mark = width) (some : 0 < width) (small : a.toNat < 16 ^ width)
    (h : c.Passes (mark :: hexDigits width a.toNat) e) : escape? c = .some (a, e) := by
  have length := Number.length_hexDigits some small
  obtain ⟨rest, -⟩ := h.cons
  have behind : e = c.skip (width + 1) := by rw [h.2, List.length_cons, length]
  have room :
    ¬(codeDigits mark = 0 ∨ (hexDigits width a.toNat ++ e.rest).length < codeDigits mark) := by
    rw [digits, List.length_append, length]
    omega
  simp only [escape?, rest, unknown, if_neg room]
  rw [digits, List.take_left' length, Number.natural?_hexDigits, behind]
  simp [ofCode?_toNat]

/-- An escape in double quotes. -/
theorem spells_escape {a x : Char} {text : List Char} (noBreak : isBreak x = false)
    (read : ∀ c e : Cursor, c.Passes (x :: text) e → escape? c = some (a, e)) :
    Spells true a ('\\' :: x :: text) := by
  refine ⟨List.cons_ne_nil _ _, fun c e fuel h => ?_⟩
  obtain ⟨rest, tail⟩ := h.cons
  have inWord : c.atWordEnd = false := by
    rw [Cursor.atWordEnd_eq, rest]
    exact endsWord_cons (by decide) _
  rw [quotedPiece, rest]
  simp [inWord, noBreak, read c.next e tail]
  cases quotedPiece true fuel e <;> rfl

theorem escapes_escapeLetters : ∀ p ∈ escapeLetters,
    (escapes.find? fun e => e.1 == p.2) = some (p.2, p.1) ∧ isBreak p.2 = false := by decide

/-- A character that is neither a gap nor a line end stands for itself. -/
theorem spells_self {a : Char} (solid : isSolid a = true) (noQuote : a ≠ closing double)
    (noEscape : double = true → a ≠ '\\') :
    Spells double a [a] := by
  refine ⟨List.cons_ne_nil _ _, fun c e fuel h => ?_⟩
  obtain ⟨rest, tail⟩ := h.cons
  have inWord : c.atWordEnd = false := by
    rw [Cursor.atWordEnd_eq, rest]
    exact endsWord_cons solid _
  obtain rfl := Cursor.passes_nil_iff.mp tail
  rw [quotedPiece, rest]
  cases double <;> simp_all [closing]

/-- How a character stands in double quotes: as itself, behind a backslash as a letter, or as the
digits of its code. -/
theorem doubleChar_cases {motive : List Char → Prop} (a : Char)
    (itself : isPrintable a = true → isBreak a = false → a ≠ '"' → a ≠ '\\' → motive [a])
    (letter : ∀ x, (a, x) ∈ escapeLetters → motive ['\\', x])
    (code : ∀ mark width, (mark, width) ∈ [('x', 2), ('u', 4), ('U', 8)] → a.toNat < 16 ^ width →
      motive ('\\' :: mark :: hexDigits width a.toNat)) : motive (doubleChar a) := by
  unfold doubleChar
  split
  next h =>
    simp only [Bool.and_eq_true, bne_iff_ne, Bool.not_eq_true'] at h
    exact itself h.1.1.1 h.1.1.2 h.1.2 h.2
  next =>
    split
    next x y found =>
      obtain rfl : x = a := by simpa using List.find?_some found
      exact letter y (List.mem_of_find?_eq_some found)
    next =>
      have valid : a.toNat < 16 ^ 8 := a.val.toNat_lt
      dsimp only
      split
      next small => exact code 'x' 2 (by decide) (by omega)
      next =>
        split
        next small => exact code 'u' 4 (by decide) (by omega)
        next => exact code 'U' 8 (by decide) valid

theorem codeMarks : ∀ m ∈ [('x', 2), ('u', 4), ('U', 8)],
    (escapes.find? fun e => e.1 == m.1) = none ∧ codeDigits m.1 = m.2 ∧ 0 < m.2
      ∧ isBreak m.1 = false ∧ isPrintable m.1 = true := by decide

theorem spells_doubleChar {a : Char} (noSpace : a ≠ ' ') : Spells true a (doubleChar a) := by
  refine doubleChar_cases (motive := Spells true a) a ?itself ?letter ?code
  case itself =>
    intro printable noBreak noQuote noEscape
    exact spells_self (isSolid_of_isPrintable printable noBreak noSpace) noQuote fun _ => noEscape
  case letter =>
    intro x known
    obtain ⟨found, noBreak⟩ := escapes_escapeLetters _ known
    exact spells_escape noBreak fun c e h =>
      (escape?_letter h.rest found).trans (by rw [Cursor.passes_nil_iff.mp h.cons.2])
  case code =>
    intro mark width known small
    obtain ⟨unknown, digits, some, noBreak, -⟩ := codeMarks _ known
    exact spells_escape noBreak fun c e h => escape?_code unknown digits some small h

/-! ## Pieces -/

/-- A piece ends here. -/
def StopsQuoted (double : Bool) : List Char → Prop
  | [] => True
  | a :: r => isSolid a = false ∨ (a = closing double ∧ (double = false → r.head? ≠ some '\''))

theorem quotedPiece_nil (stops : StopsQuoted double c.rest) :
    quotedPiece double fuel c = some ([], false, c) := by
  cases fuel with
  | zero => rfl
  | succ fuel =>
    rw [quotedPiece]
    cases hr : c.rest with
    | nil => rfl
    | cons a r =>
      rw [hr] at stops
      rcases stops with notSolid | ⟨rfl, alone⟩
      · have ends : c.atWordEnd = true := by
          rw [Cursor.atWordEnd_eq, hr, endsWord]
          simpa [isSolid, Bool.or_eq_true, imp_iff_not_or] using notSolid
        simp [ends]
      · have inWord : c.atWordEnd = false := by
          rw [Cursor.atWordEnd_eq, hr]
          exact endsWord_cons (by cases double <;> decide) _
        cases double <;> simp_all [closing]

theorem quotedPiece_eq {w : List Char} {spell : Char → List Char}
    (spells : ∀ a ∈ w, Spells double a (spell a)) (h : c.Passes (w.flatMap spell) e)
    (stops : StopsQuoted double e.rest) (enough : w.length ≤ fuel) :
    quotedPiece double fuel c = some (w, false, e) := by
  induction w generalizing c fuel with
  | nil =>
    obtain rfl := Cursor.passes_nil_iff.mp h
    exact quotedPiece_nil stops
  | cons a w ih =>
    obtain ⟨fuel, rfl⟩ := Nat.exists_eq_add_one.mpr (Nat.zero_lt_of_lt enough)
    obtain ⟨first, spells⟩ := List.forall_mem_cons.mp spells
    rw [List.flatMap_cons] at h
    obtain ⟨m, one, tail⟩ := Cursor.passes_append_iff.mp h
    rw [first.2 c m fuel one, ih spells tail (Nat.le_of_succ_le_succ enough)]
    rfl

theorem length_le_flatMap {w : List Char} {spell : Char → List Char}
    (spells : ∀ a ∈ w, spell a ≠ []) : w.length ≤ (w.flatMap spell).length := by
  induction w with
  | nil => exact Nat.le_refl _
  | cons a w ih =>
    obtain ⟨first, spells⟩ := List.forall_mem_cons.mp spells
    have one := List.length_pos_iff.mpr first
    have others := ih spells
    rw [List.flatMap_cons, List.length_append, List.length_cons]
    omega

/-- The last piece, and the quote behind it. -/
theorem quoted_last {w : List Char} {spell : Char → List Char}
    (spells : ∀ a ∈ w, Spells double a (spell a))
    (h : c.Passes (w.flatMap spell ++ [closing double]) e)
    (alone : double = false → e.rest.head? ≠ some '\'') (inside : c.column ≠ 0) :
    quoted double (fuel + 1) c = some (w, e) := by
  obtain ⟨m, piece, tail⟩ := Cursor.passes_append_iff.mp h
  have enough : w.length ≤ c.rest.length := by
    rw [piece.length_rest]
    exact (length_le_flatMap fun a ha => (spells a ha).1).trans (Nat.le_add_right _ _)
  have more : c.rest.isEmpty = false := by
    rw [h.rest]
    simp
  have read : quotedPiece double c.rest.length c = some (w, false, m) :=
    quotedPiece_eq spells piece (tail.rest ▸ .inr ⟨rfl, alone⟩) enough
  have close : m.rest.head? = some (closing double) := by rw [tail.rest]; rfl
  have behind : e = m.next := Cursor.passes_nil_iff.mp tail.cons.2
  rw [quoted, Cursor.atDocumentMark_of_column inside, more]
  simp [read, close, behind]

/-- A piece, and the gap behind it. -/
theorem quoted_gap {w : List Char} {spell : Char → List Char} {gap : Fold} {m : Cursor}
    (spells : ∀ a ∈ w, Spells double a (spell a)) (piece : c.Passes (w.flatMap spell) m)
    (stops : ∃ a ∈ m.rest.head?, isSolid a = false)
    (fold : foldGap 0 m.rest.length false .none m = some (gap, e)) (inside : c.column ≠ 0) :
    quoted double (fuel + 1) c =
      (quoted double fuel e).map fun read => (w ++ gap.text ++ read.1, read.2) := by
  obtain ⟨a, ha, notSolid⟩ := stops
  obtain ⟨r, hr⟩ := List.head?_eq_some_iff.mp ha
  have enough : w.length ≤ c.rest.length := by
    rw [piece.length_rest]
    exact (length_le_flatMap fun a ha => (spells a ha).1).trans (Nat.le_add_right _ _)
  have more : c.rest.isEmpty = false := by
    rw [piece.rest, hr]
    simp
  have read : quotedPiece double c.rest.length c = some (w, false, m) :=
    quotedPiece_eq spells piece (hr ▸ .inl notSolid) enough
  have goesOn : m.rest.head? ≠ some (closing double) := by
    rintro close
    obtain rfl : closing double = a := Option.some.inj (close.symm.trans ha)
    cases double <;> exact absurd notSolid (by decide)
  rw [quoted, Cursor.atDocumentMark_of_column inside, more]
  simp [read, goesOn, fold]
  cases quoted double fuel e <;> simp

/-! ## Double quotes -/

theorem doubleChar_ne_nil (a : Char) : doubleChar a ≠ [] := by
  refine doubleChar_cases (motive := (· ≠ [])) a ?itself ?letter ?code
  case itself => exact fun _ _ _ _ => List.cons_ne_nil _ _
  case letter => exact fun _ _ => List.cons_ne_nil _ _
  case code => exact fun _ _ _ _ => List.cons_ne_nil _ _

theorem solid_doubleChar {a : Char} (noSpace : a ≠ ' ') (u : List Char) :
    Solid (doubleChar a ++ u) := by
  refine doubleChar_cases (motive := fun text => Solid (text ++ u)) a ?itself ?letter ?code
  case itself =>
    intro printable noBreak _ _
    exact solid_cons (isSolid_of_isPrintable printable noBreak noSpace) _
  case letter => exact fun _ _ => solid_cons (by decide) _
  case code => exact fun _ _ _ _ => solid_cons (by decide) _

theorem escapeLetters_shown :
    ∀ p ∈ escapeLetters, isPrintable p.2 = true ∧ isBreak p.2 = false := by
  decide

theorem hexDigit_shown : ∀ k < 16, isPrintable (Char.toUpper (Nat.digitChar k)) = true ∧
    isBreak (Char.toUpper (Nat.digitChar k)) = false := by decide

/-- What stands in double quotes can be shown on one line. -/
theorem doubleChar_shown (a : Char) :
    ∀ x ∈ doubleChar a, isPrintable x = true ∧ isBreak x = false := by
  have backslash : isPrintable '\\' = true ∧ isBreak '\\' = false := by decide
  refine doubleChar_cases
    (motive := fun text => ∀ x ∈ text, isPrintable x = true ∧ isBreak x = false) a
    ?itself ?letter ?code
  case itself => simp +contextual
  case letter =>
    intro x known
    simpa [backslash] using escapeLetters_shown _ known
  case code =>
    intro mark width known small
    obtain ⟨-, -, -, noBreak, printable⟩ := codeMarks _ known
    have digits : ∀ x ∈ hexDigits width a.toNat, isPrintable x = true ∧ isBreak x = false := by
      intro x hx
      obtain ⟨k, hk, rfl⟩ := Number.mem_hexDigits hx
      exact hexDigit_shown k hk
    simpa [backslash, printable, noBreak] using digits

theorem flatMap_spaces {spell : Char → List Char} (one : spell ' ' = [' ']) (n : Nat) :
    (spaces n).flatMap spell = spaces n := by
  induction n with
  | zero => rfl
  | succ n ih =>
    rw [spaces_succ, List.flatMap_cons, ih, one]
    rfl

/-- In double quotes any text is read as it is. -/
theorem quoted_double {s : List Char} (h : c.Passes (s.flatMap doubleChar ++ ['"']) e)
    (inside : c.column ≠ 0) (enough : s.length < fuel) : quoted true fuel c = some (s, e) := by
  induction s using words_induction (fun a => a != ' ') generalizing c fuel with
  | word w words =>
    obtain ⟨fuel, rfl⟩ := Nat.exists_eq_add_one.mpr (Nat.zero_lt_of_lt enough)
    exact quoted_last (fun a ha => spells_doubleChar (by simpa using words a ha)) h nofun inside
  | gap w g t words more gaps first ih =>
    obtain ⟨fuel, rfl⟩ := Nat.exists_eq_add_one.mpr (Nat.zero_lt_of_lt enough)
    obtain ⟨n, rfl⟩ := exists_spaces (fun a ha => by simpa using gaps a ha) more
    rw [List.flatMap_append, List.flatMap_append, flatMap_spaces (by decide), List.append_assoc,
      List.append_assoc] at h
    obtain ⟨m, piece, tail⟩ := Cursor.passes_append_iff.mp h
    obtain ⟨m', between, tail⟩ := Cursor.passes_append_iff.mp tail
    have solid : Solid m'.rest := by
      rw [tail.rest]
      cases t with
      | nil => exact solid_cons (by decide) _
      | cons a t =>
        rw [List.flatMap_cons, List.append_assoc, List.append_assoc]
        exact solid_doubleChar (by simpa using first a rfl) _
    have fold : foldGap 0 m.rest.length false .none m = some (⟨spaces (n + 1), none, []⟩, m') :=
      foldGap_spaces between solid (by rw [between.length_rest]; simp [spaces])
    have unbroken : ∀ a ∈ w.flatMap doubleChar, isBreak a = false := by
      intro a ha
      obtain ⟨b, -, ha⟩ := List.mem_flatMap.mp ha
      exact (doubleChar_shown b a ha).2
    have inside' : m'.column ≠ 0 := by
      rw [between.column_of_unbroken fun a ha => mem_spaces ha ▸ isBreak_space,
        piece.column_of_unbroken unbroken]
      omega
    simp only [List.length_append] at enough
    rw [quoted_gap (fun a ha => spells_doubleChar (by simpa using words a ha)) piece
        ⟨' ', by rw [between.rest]; rfl, by decide⟩ fold inside,
      ih tail inside' (by simp only [spaces, List.length_replicate] at enough; omega)]
    simp [Fold.text]

/-! ## Single quotes -/

/-- A quote is doubled in single quotes. -/
def singleChar (a : Char) : List Char := if a == '\'' then ['\'', '\''] else [a]

theorem spells_singleChar {a : Char} (solid : isSolid a = true) :
    Spells false a (singleChar a) := by
  unfold singleChar
  split
  next quote =>
    obtain rfl : a = '\'' := by simpa using quote
    refine ⟨List.cons_ne_nil _ _, fun c e fuel h => ?_⟩
    have inWord : c.atWordEnd = false := by
      rw [Cursor.atWordEnd_eq, h.rest]
      exact endsWord_cons solid _
    have behind : c.skip 2 = e := h.2.symm
    have rest : c.rest = '\'' :: '\'' :: e.rest := h.rest
    rw [quotedPiece, rest]
    simp [inWord, behind]
  next other =>
    exact spells_self solid (by simpa [closing] using other) nofun

theorem mem_flatMap_singleChar {a : Char} {w : List Char} : a ∈ w.flatMap singleChar ↔ a ∈ w := by
  have one (b : Char) : a ∈ singleChar b ↔ a = b := by
    unfold singleChar
    split <;> simp_all
  simp [List.mem_flatMap, one]

section

variable {column : Nat}

theorem singleFrom_unbroken {w : List Char} (unbroken : ∀ a ∈ w, isBreak a = false)
    (s : List Char) :
    singleFrom column false (w ++ s) = w.flatMap singleChar ++ singleFrom column false s := by
  induction w with
  | nil => rfl
  | cons a w ih =>
    obtain ⟨first, unbroken⟩ := List.forall_mem_cons.mp unbroken
    rw [List.cons_append, singleFrom, ih unbroken, List.flatMap_cons, singleChar]
    cases h : a == '\'' <;> simp_all

theorem singleFrom_breaks {bs s : List Char} (lines : ∀ b ∈ bs, isBreak b = true)
    (first : ∀ a ∈ s.head?, isBreak a = false) :
    singleFrom column true (bs ++ s) = bs ++ spaces column ++ singleFrom column false s := by
  induction bs with
  | nil =>
    cases s with
    | nil => simp [singleFrom]
    | cons a s => simp [singleFrom, first a rfl]
  | cons b bs ih =>
    obtain ⟨line, lines⟩ := List.forall_mem_cons.mp lines
    rw [List.cons_append, singleFrom, ih lines]
    simp [line]

theorem singleFrom_shown (column : Nat) (afterBreak : Bool) {s : List Char}
    (shown : ∀ a ∈ s, isPrintable a = true) :
    ∀ a ∈ singleFrom column afterBreak s, isPrintable a = true := by
  have quote : isPrintable '\'' = true := by decide
  induction s generalizing afterBreak with
  | nil =>
    rw [singleFrom]
    split
    · exact spaces_shown column
    · exact List.forall_mem_nil _
  | cons a s ih =>
    obtain ⟨first, shown⟩ := List.forall_mem_cons.mp shown
    rw [singleFrom]
    split <;> simp only [List.forall_mem_append, List.forall_mem_cons]
    · refine ⟨?_, first, ih true shown⟩
      split <;> simp [isPrintable_newline]
    · refine ⟨⟨?_, ?_⟩, first, ih false shown⟩
      · split
        · exact spaces_shown column
        · exact List.forall_mem_nil _
      · split <;> simp [quote]

theorem length_le_singleFrom (column : Nat) (afterBreak : Bool) (s : List Char) :
    s.length ≤ (singleFrom column afterBreak s).length := by
  induction s generalizing afterBreak with
  | nil => exact Nat.zero_le _
  | cons a s ih =>
    rw [singleFrom]
    split <;> simp only [List.length_append, List.length_cons]
    · exact Nat.le_add_left_of_le (Nat.succ_le_succ (ih true))
    · exact Nat.le_add_left_of_le (Nat.succ_le_succ (ih false))

theorem solid_singleFrom {t : List Char} (first : Solid t) (u : List Char) :
    Solid (singleFrom column false t ++ '\'' :: u) := by
  cases t with
  | nil => exact solid_cons (by decide) _
  | cons a t =>
    have solid := first a rfl
    have noBreak := ((isSolid_iff a).mp solid).2
    rw [singleFrom, noBreak]
    cases h : a == '\''
    · exact solid_cons solid _
    · exact solid_cons (by decide) _

end

/-- Line ends as they stand in single quotes: a line feed that comes first is written twice. -/
def singleBreaks (b : Char) (bs : List Char) : List Char :=
  (if b == '\n' then ['\n'] else []) ++ b :: bs

theorem mem_singleBreaks {a b : Char} {bs : List Char} : a ∈ singleBreaks b bs ↔ a ∈ b :: bs := by
  unfold singleBreaks
  split <;> simp_all

theorem singleFrom_gap {column : Nat} {b : Char} {bs t : List Char} (line : isBreak b = true)
    (lines : ∀ b ∈ bs, isBreak b = true) (first : Solid t) :
    singleFrom column false (b :: (bs ++ t)) =
      singleBreaks b bs ++ spaces column ++ singleFrom column false t := by
  have next : ∀ a ∈ t.head?, isBreak a = false := fun a ha => ((isSolid_iff a).mp (first a ha)).2
  rw [singleFrom, singleFrom_breaks lines next, singleBreaks]
  simp [line]

/-- Line ends are read as they are. -/
theorem exists_fold_singleBreaks {b : Char} {bs : List Char} {n : Nat} (line : isBreak b = true)
    (lines : ∀ b ∈ bs, isBreak b = true) (h : c.Passes (singleBreaks b bs ++ spaces n) e)
    (solid : Solid e.rest) :
    ∃ gap, foldGap 0 c.rest.length false .none c = some (gap, e) ∧ gap.text = b :: bs := by
  have enough : (singleBreaks b bs).length + n ≤ c.rest.length := by
    rw [h.length_rest]
    simp [spaces]
  by_cases feed : b = '\n'
  · subst feed
    exact ⟨⟨[], some '\n', '\n' :: bs⟩,
      foldGap_breaks line (List.forall_mem_cons.mpr ⟨line, lines⟩) h
      solid (by simp [singleBreaks] at enough ⊢; omega), rfl⟩
  · have same : singleBreaks b bs = b :: bs := by simp [singleBreaks, feed]
    rw [same] at h enough
    refine ⟨⟨[], some b, bs⟩,
      foldGap_breaks line lines h solid (by rw [List.length_cons] at enough; omega), ?_⟩
    unfold Fold.text
    split
    next none => simp at none
    next other => simp_all
    next other => simp_all

/-- Next to each other, there are no spaces and line ends. -/
theorem hasPair_of_append {p q : Char → Bool} {s t : List Char} (h : hasPair p q (s ++ t) = false) :
    hasPair p q s = false ∧ hasPair p q t = false := by
  induction s with
  | nil => exact ⟨rfl, h⟩
  | cons a s ih =>
    cases s with
    | nil =>
      cases t with
      | nil => exact ⟨rfl, rfl⟩
      | cons b t =>
        simp only [List.cons_append, List.nil_append, hasPair, Bool.or_eq_false_iff] at h
        exact ⟨rfl, h.2⟩
    | cons b s =>
      simp only [List.cons_append, hasPair, Bool.or_eq_false_iff] at h ih ⊢
      obtain ⟨here, there⟩ := ih h.2
      exact ⟨⟨h.1, here⟩, there⟩

/-- So what lies between two words is of one kind. -/
theorem gap_uniform {g : List Char} (h : ∀ a ∈ g, a = ' ' ∨ isBreak a = true)
    (noBreakAfter : hasPair isSpace isBreak g = false)
    (noSpaceAfter : hasPair isBreak isSpace g = false) :
    (∀ a ∈ g, a = ' ') ∨ ∀ a ∈ g, isBreak a = true := by
  induction g with
  | nil => exact .inl (List.forall_mem_nil _)
  | cons a g ih =>
    obtain ⟨first, others⟩ := List.forall_mem_cons.mp h
    cases g with
    | nil => simpa using first
    | cons b g =>
      simp only [hasPair, Bool.or_eq_false_iff] at noBreakAfter noSpaceAfter
      have rest := ih others noBreakAfter.2 noSpaceAfter.2
      simp only [List.forall_mem_cons] at rest ⊢
      rcases first with rfl | line
      · refine .inl ⟨rfl, rest.resolve_right fun breaks => ?_⟩
        simp [breaks.1, isSpace] at noBreakAfter
      · refine .inr ⟨line, rest.resolve_left fun gap => ?_⟩
        simp [line, gap.1, isSpace] at noSpaceAfter

/-- What lies between two words is read as it is. -/
theorem exists_fold_gap {g t : List Char} {column : Nat}
    (kinds : (∀ a ∈ g, a = ' ') ∨ ∀ a ∈ g, isBreak a = true) (more : g ≠ []) (first : Solid t)
    (h : c.Passes (singleFrom column false (g ++ t) ++ ['\'']) e) (inside : c.column ≠ 0)
    (indented : column ≠ 0) :
    ∃ gap m, foldGap 0 c.rest.length false .none c = some (gap, m) ∧ gap.text = g ∧
      m.Passes (singleFrom column false t ++ ['\'']) e ∧ m.column ≠ 0 ∧
      ∃ a ∈ c.rest.head?, isSolid a = false := by
  rcases kinds with blank | lines
  · obtain ⟨n, rfl⟩ := exists_spaces blank more
    have unbroken : ∀ a ∈ spaces (n + 1), isBreak a = false := fun a ha =>
      mem_spaces ha ▸ isBreak_space
    rw [singleFrom_unbroken unbroken, flatMap_spaces (by decide), List.append_assoc] at h
    obtain ⟨m, between, tail⟩ := Cursor.passes_append_iff.mp h
    have solid : Solid m.rest := by
      rw [tail.rest, List.append_assoc]
      exact solid_singleFrom first _
    refine ⟨_, m, foldGap_spaces between solid (by rw [between.length_rest]; simp [spaces]), ?_,
      tail, ?_, ' ', by rw [between.rest]; rfl, by decide⟩
    · simp [Fold.text, Fold.none]
    · rw [between.column_of_unbroken unbroken]
      omega
  · obtain ⟨b, bs, rfl⟩ := List.exists_cons_of_ne_nil more
    obtain ⟨line, others⟩ := List.forall_mem_cons.mp lines
    rw [List.cons_append, singleFrom_gap line others first, List.append_assoc] at h
    obtain ⟨m, between, tail⟩ := Cursor.passes_append_iff.mp h
    have solid : Solid m.rest := by
      rw [tail.rest, List.append_assoc]
      exact solid_singleFrom first _
    have written : ∀ a ∈ singleBreaks b bs, isBreak a = true := fun a ha =>
      lines a (mem_singleBreaks.mp ha)
    have some : singleBreaks b bs ≠ [] := by simp [singleBreaks]
    obtain ⟨gap, fold, text⟩ := exists_fold_singleBreaks line others between solid
    refine ⟨gap, m, fold, text, tail, ?_, ?_⟩
    · rwa [between.column_of_breaks written some]
    · obtain ⟨a, r, hr⟩ := List.exists_cons_of_ne_nil some
      refine ⟨a, by rw [between.rest, hr]; rfl, ?_⟩
      simp [isSolid, written a (hr ▸ List.mem_cons_self)]

/-- In single quotes, in a column of its own, a text that they may hold is read as it is. -/
theorem quoted_single {s : List Char} {column : Nat} (holds : singleHolds s = true)
    (h : c.Passes (singleFrom column false s ++ ['\'']) e) (alone : e.rest.head? ≠ some '\'')
    (inside : c.column ≠ 0) (indented : column ≠ 0) (enough : s.length < fuel) :
    quoted false fuel c = some (s, e) := by
  simp only [singleHolds, isTame, Bool.and_eq_true, Bool.not_eq_true', List.all_eq_true] at holds
  obtain ⟨⟨noBreakAfter, printable⟩, noSpaceAfter⟩ := holds
  induction s using words_induction isSolid generalizing c fuel with
  | word w words =>
    obtain ⟨fuel, rfl⟩ := Nat.exists_eq_add_one.mpr (Nat.zero_lt_of_lt enough)
    rw [← List.append_nil w, singleFrom_unbroken fun a ha => ((isSolid_iff a).mp (words a ha)).2,
      singleFrom, if_neg Bool.false_ne_true, List.append_nil] at h
    exact quoted_last (fun a ha => spells_singleChar (words a ha)) h (fun _ => alone) inside
  | gap w g t words more gaps first ih =>
    obtain ⟨fuel, rfl⟩ := Nat.exists_eq_add_one.mpr (Nat.zero_lt_of_lt enough)
    obtain ⟨-, pairs⟩ := hasPair_of_append noBreakAfter
    obtain ⟨-, pairs'⟩ := hasPair_of_append noSpaceAfter
    obtain ⟨pairs, later⟩ := hasPair_of_append pairs
    obtain ⟨pairs', later'⟩ := hasPair_of_append pairs'
    have shown : ∀ a ∈ t, isPrintable a = true := fun a ha =>
      printable a (List.mem_append_right w (List.mem_append_right g ha))
    have kinds : ∀ a ∈ g, a = ' ' ∨ isBreak a = true := by
      intro a ha
      by_contra other
      rw [not_or, Bool.not_eq_true] at other
      have solid := isSolid_of_isPrintable
        (printable a (List.mem_append_right w (List.mem_append_left t ha))) other.2 other.1
      exact Bool.false_ne_true ((gaps a ha).symm.trans solid)
    rw [singleFrom_unbroken fun a ha => ((isSolid_iff a).mp (words a ha)).2, List.append_assoc] at h
    obtain ⟨m, piece, tail⟩ := Cursor.passes_append_iff.mp h
    have inside' : m.column ≠ 0 := by
      rw [piece.column_of_unbroken fun a ha =>
        ((isSolid_iff a).mp (words a (mem_flatMap_singleChar.mp ha))).2]
      omega
    obtain ⟨gap, m', fold, text, tail, inside'', stops⟩ :=
      exists_fold_gap (gap_uniform kinds pairs pairs') more first tail inside' indented
    have shorter := List.length_pos_iff.mpr more
    simp only [List.length_append] at enough
    have read : quoted false fuel m' = some (t, e) :=
      ih tail inside'' (by omega) later' later shown
    rw [quoted_gap (fun a ha => spells_singleChar (words a ha)) piece stops fold inside, read, text]
    simp

end Misuse.Yaml
