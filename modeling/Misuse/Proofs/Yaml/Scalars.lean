import Misuse.Proofs.Yaml.Lexing

/-!
# The tokens of scalars

A scalar that its style holds (`Scalar.Fits`) becomes one token, whatever the style
(`Lexer.exists_token_scalar`), and every text has such a scalar (`fits_ofText`).
-/

namespace Misuse.Yaml

/-- The style holds the text, and there is no tag. -/
inductive Scalar.Fits : Scalar → Prop
  | plain (text : String) (nonempty : text.toList ≠ []) (holds : plainHolds text.toList = true) :
    Fits ⟨text, .plain, none⟩
  | single (text : String) (holds : singleHolds text.toList = true) : Fits ⟨text, .single, none⟩
  | double (text : String) : Fits ⟨text, .double, none⟩
  | literal (text : String) (nonempty : text.toList ≠ [])
      (holds : literalHolds text.toList = true) :
    Fits ⟨text, .literal, none⟩

theorem Scalar.Fits.untagged {s : Scalar} (fits : s.Fits) : ⟨s.text, s.style, none⟩ = s := by
  cases fits <;> rfl

theorem fits_ofText (text : String) : Scalar.Fits ⟨text, styleOf text, none⟩ := by
  unfold styleOf
  dsimp only
  split
  next feed =>
    split
    next holds => exact .literal text (List.ne_nil_of_mem (List.contains_iff_mem.mp feed)) holds
    next => exact .double text
  next =>
    split
    next plain =>
      simp only [Bool.and_eq_true, Bool.not_eq_true', looksTyped, Bool.or_eq_false_iff] at plain
      refine .plain text ?_ plain.1
      rw [Ne, String.toList_eq_nil_iff]
      simpa using plain.2.1.1.1.1
    next =>
      split
      next holds => exact .single text holds
      next => exact .double text

/-! ## What is written -/

theorem isPrintable_of_isTame {s : List Char} (tame : isTame s = true) :
    ∀ a ∈ s, isPrintable a = true := by
  simp only [isTame, Bool.and_eq_true, List.all_eq_true] at tame
  exact tame.2

theorem isTame_of_plainHolds {s : List Char} (holds : plainHolds s = true) : isTame s = true := by
  simp only [plainHolds, singleHolds, Bool.and_eq_true] at holds
  exact holds.1.1.1.1.1.1.1

theorem literalHint_shown (s : List Char) : ∀ a ∈ literalHint s, isPrintable a = true := by
  have two : isPrintable '2' = true := by decide
  unfold literalHint
  split <;> simp [two]

theorem literalChomp_shown (s : List Char) : ∀ a ∈ literalChomp s, isPrintable a = true := by
  have signs : isPrintable '-' = true ∧ isPrintable '+' = true := by decide
  unfold literalChomp
  split
  · simp [signs]
  · split
    · split <;> simp [signs]
    · simp [signs]

/-- Every character of a scalar can be shown. -/
theorem Scalar.Fits.shown {s : Scalar} (fits : s.Fits) (column : Nat) :
    ∀ a ∈ s.line column, isPrintable a = true := by
  cases fits with
  | plain text nonempty holds =>
    have shown := isPrintable_of_isTame (isTame_of_plainHolds holds)
    simpa [Scalar.line, or_imp, forall_and, isPrintable_newline] using shown
  | single text holds =>
    simp only [singleHolds, Bool.and_eq_true] at holds
    have shown := singleFrom_shown column false (isPrintable_of_isTame holds.1)
    have quote : isPrintable '\'' = true := by decide
    simpa [Scalar.line, or_imp, forall_and, isPrintable_newline, quote] using shown
  | double text =>
    have quote : isPrintable '"' = true := by decide
    have shown : ∀ x ∈ text.toList.flatMap doubleChar, isPrintable x = true := by
      intro x hx
      obtain ⟨a, -, hx⟩ := List.mem_flatMap.mp hx
      exact (doubleChar_shown a x hx).1
    simp only [Scalar.line, List.nil_append, List.cons_append, List.forall_mem_cons,
      List.forall_mem_append]
    exact ⟨quote, shown, quote, isPrintable_newline, List.forall_mem_nil _⟩
  | literal text nonempty holds =>
    simp only [literalHolds, Bool.and_eq_true] at holds
    have shown := literalFrom_shown column true (isPrintable_of_isTame holds.1)
    have bar : isPrintable '|' = true := by decide
    simp only [Scalar.line, literalLines, List.nil_append, List.cons_append, List.forall_mem_cons,
      List.forall_mem_append]
    refine ⟨bar, ⟨literalHint_shown _, literalChomp_shown _⟩, isPrintable_newline, shown, ?_⟩
    split <;> simp [isPrintable_newline]

theorem Scalar.Fits.begins {s : Scalar} (fits : s.Fits) (column : Nat) (u : List Char) :
    Begins (s.line column ++ u) := by
  cases fits with
  | plain text nonempty holds =>
    have plain := isPlain_of_plainHolds holds nonempty
    obtain ⟨b, t, ht⟩ := List.exists_cons_of_ne_nil nonempty
    intro a ha
    obtain rfl : b = a := by simpa [Scalar.line, ht] using ha
    have printable := isPrintable_of_isTame (isTame_of_plainHolds holds) b (by rw [ht]; simp)
    have noHash := plain.head?_ne_hash []
    refine ⟨plain.first b (by rw [ht]; rfl), ?_, ?_⟩
    · rintro rfl
      simp [ht] at noHash
    · rintro rfl
      exact absurd printable (by decide)
  | single text holds => exact begins_cons (by decide) _
  | double text => exact begins_cons (by decide) _
  | literal text nonempty holds => exact begins_cons (by decide) _

/-- A scalar ends its line. -/
theorem Scalar.Fits.exists_line_end {s : Scalar} (fits : s.Fits) (column : Nat) :
    ∃ w b, s.line column = w ++ [b] ∧ isBreak b = true := by
  cases fits with
  | plain text nonempty holds => exact ⟨text.toList, '\n', rfl, isBreak_newline⟩
  | single text holds =>
    refine ⟨'\'' :: (singleFrom column false text.toList ++ ['\'']), '\n', ?_, isBreak_newline⟩
    simp [Scalar.line]
  | double text =>
    refine ⟨'"' :: (text.toList.flatMap doubleChar ++ ['"']), '\n', ?_, isBreak_newline⟩
    simp [Scalar.line]
  | literal text nonempty holds =>
    obtain ⟨z, hz⟩ := Option.isSome_iff_exists.mp (List.getLast?_isSome.mpr nonempty)
    obtain ⟨t, ht⟩ := List.getLast?_eq_some_iff.mp hz
    cases line : isBreak z with
    | true =>
      have ends : literalFrom column true (t ++ [z]) = literalFrom column true t ++ [z] :=
        literalFrom_append_breaks (List.forall_mem_singleton.mpr line) true t
      refine ⟨'|' :: (literalHint (t ++ [z]) ++ literalChomp (t ++ [z]) ++
        '\n' :: literalFrom column true t), z, ?_, line⟩
      simp [Scalar.line, literalLines, ht, line, ends]
    | false =>
      refine ⟨'|' :: (literalHint (t ++ [z]) ++ literalChomp (t ++ [z]) ++
        '\n' :: literalFrom column true (t ++ [z])), '\n', ?_, isBreak_newline⟩
      simp [Scalar.line, literalLines, ht, line]

namespace Lexer

variable {c e : Cursor} {indent d column : Nat} {outer : List Int} {keyAllowed : Bool}
  {ts : List Token}

/-! ## Quoted scalars -/

theorem token_quote {double : Bool} (inside : c.column ≠ 0) :
    (facing c indent outer keyAllowed ts).token (closing double) =
      (facing c indent outer keyAllowed ts).quotedScalar double := by
  cases double <;> simp [token, facing, Cursor.atMark, inside, closing]

theorem exists_token_quoted {double : Bool} {text : String} {w : List Char}
    (h : c.Passes (closing double :: (w ++ [closing double, '\n']) ++ spaces d) e)
    (place : indent < c.column) (begins : Begins e.rest)
    (read : ∀ m fuel, c.next.Passes (w ++ [closing double]) m → m.rest.head? = some '\n' →
      c.next.column ≠ 0 → w.length < fuel → quoted double fuel c.next = some (text.toList, m)) :
    ∃ l, c.rest.head? = some (closing double) ∧
      (facing c indent outer keyAllowed ts).token (closing double) = some l ∧
      l.cursor.rest.length < c.rest.length ∧
      Rests l e indent outer (ts ++ [.scalar (if double then .double else .single) text]) := by
  have parts : closing double :: (w ++ [closing double, '\n']) ++ spaces d =
      closing double :: ((w ++ [closing double]) ++ '\n' :: spaces d) := by simp
  rw [parts] at h
  obtain ⟨rest, tail⟩ := h.cons
  obtain ⟨m, quote, ends⟩ := Cursor.passes_append_iff.mp tail
  have lengths := (Cursor.passes_singleton rest).length_rest.trans
    (congrArg _ quote.length_rest)
  rw [List.length_append, List.length_singleton] at lengths
  have inside : c.next.column ≠ 0 := by
    rw [Cursor.column_next rest]
    cases double <;> exact Nat.succ_ne_zero _
  have scalar : quoted double (c.rest.length + 1) c.next = some (text.toList, m) :=
    read m _ quote (by rw [ends.rest]; rfl) inside (by omega)
  have noKey : (indent : Int) ≠ c.column := by omega
  obtain ⟨candidates, saved, fades⟩ : ∃ candidates,
      (facing c indent outer keyAllowed ts).saveCandidate = some ⟨c, _, _, _, candidates, _⟩ ∧ _ :=
    exists_saveCandidate noKey
  have line : c.line ≤ m.line := by
    rw [quote.line, (Cursor.passes_singleton rest).line]
    omega
  have shorter : m.rest.length < c.rest.length := by omega
  refine ⟨⟨m, indent, outer, false, candidates, (ts ++ [_]).toArray⟩, by rw [rest]; rfl, ?_,
    shorter, rests_of_line ends begins fades line⟩
  rw [token_quote (by omega), quotedScalar, saved]
  simp [scalar, push]

/-! ## Literal blocks -/

theorem exists_token_literal {text : String} (inside : c.column ≠ 0)
    (read : Yaml.blockScalar false indent c.next = some (text.toList, e)) (begins : Begins e.rest)
    (later : c.line < e.line) :
    ∃ l, (facing c indent outer keyAllowed ts).token '|' = some l ∧ l.cursor = e ∧
      Rests l e indent outer (ts ++ [.scalar .literal text]) := by
  refine ⟨⟨e, indent, outer, true, [none], (ts ++ [_]).toArray⟩, ?_, rfl,
    rests_of_begins begins (.inl rfl) later⟩
  have dispatch : (facing c indent outer keyAllowed ts).token '|' =
      (facing c indent outer keyAllowed ts).blockScalar false := by
    simp [token, facing, Cursor.atMark, inside, inFlow]
  rw [dispatch, blockScalar]
  simp [facing, dropCandidate, read, push]

/-! ## Plain scalars -/

/-- A plain text begins no other token. -/
theorem token_plain {indent : Int} {a : Char} {s u : List Char} (holds : plainHolds (a :: s) = true)
    (rest : c.rest = a :: (s ++ u)) (noMark : c.atDocumentMark = false) :
    (facing c indent outer keyAllowed ts).token a =
      (facing c indent outer keyAllowed ts).plainScalar := by
  have solid : isSolid a = true := (isPlain_of_plainHolds holds (List.cons_ne_nil a s)).first a rfl
  simp only [plainHolds, Bool.and_eq_true, Bool.not_eq_true', opensOther, hasMark,
    Bool.or_eq_false_iff] at holds
  obtain ⟨⟨⟨-, noOther, alone⟩, -⟩, ⟨noValue, -⟩, -⟩ := holds
  -- what is a sign only before a gap stands before another character of the word
  have joined (sign : a = '-' ∨ a = '?' ∨ a = ':') :
      endsWord (s ++ u) = false ∧ (s ++ u).head?.any isGap = false := by
    have word : endsWord s = false := by
      rcases sign with rfl | rfl | rfl
      · simpa using alone
      · simpa using alone
      · simpa using noValue
    obtain ⟨some, first⟩ := (endsWord_eq_false_iff s).mp word
    obtain ⟨b, s, rfl⟩ := List.exists_cons_of_ne_nil some
    exact ⟨endsWord_cons (first b rfl) _, by simpa using ((isSolid_iff b).mp (first b rfl)).1⟩
  have next : c.next.atWordEnd = endsWord (s ++ u) := by
    rw [Cursor.atWordEnd_eq, Cursor.rest_next, rest]
    rfl
  have here : c.atWordEnd = false := by
    rw [Cursor.atWordEnd_eq, rest]
    exact endsWord_cons solid _
  simp only [Cursor.atDocumentMark, Bool.or_eq_false_iff] at noMark
  simp only [String.reduceToList, List.contains_eq_mem, List.mem_cons, List.not_mem_nil, or_false,
    Bool.decide_or, Bool.or_eq_false_iff, decide_eq_false_iff_not] at noOther
  have noEntry : ¬(a = '-' ∧ c.next.atWordEnd = true) := by
    rintro ⟨dash, ends⟩
    simp [next, (joined (.inl dash)).1] at ends
  have noQuery : ¬(a = '?' ∧ c.next.atWordEnd = true) := by
    rintro ⟨query, ends⟩
    simp [next, (joined (.inr (.inl query))).1] at ends
  have noColon : ¬(a = ':' ∧ c.next.atWordEnd = true) := by
    rintro ⟨colon, ends⟩
    simp [next, (joined (.inr (.inr colon))).1] at ends
  have starts : (facing c indent outer keyAllowed ts).startsPlain = true := by
    by_cases dash : a = '-'
    · simp only [startsPlain, cursor_facing, rest, dash, beq_self_eq_true, ↓reduceIte,
        (joined (.inl dash)).2, Bool.not_false]
    by_cases sign : a = '?' ∨ a = ':'
    · simp [startsPlain, rest, dash, sign, next, (joined (.inr sign)).1]
    · simp [startsPlain, rest, dash, sign, here, noOther]
  simp [token, noMark, noOther, noEntry, noQuery, noColon, starts]

theorem exists_token_plain {text : String} {a : Char} {s : List Char}
    (letters : text.toList = a :: s)
    (holds : plainHolds text.toList = true) (h : c.Passes (text.toList ++ '\n' :: spaces d) e)
    (place : indent < c.column) (outside : d ≤ indent) (begins : Begins e.rest) :
    ∃ l, (facing c indent outer keyAllowed ts).token a = some l ∧ l.cursor = e ∧
      Rests l e indent outer (ts ++ [.scalar .plain text]) := by
  have same : String.ofList (a :: s) = text := letters ▸ String.ofList_toList
  rw [letters] at holds h
  have noKey : (indent : Int) ≠ c.column := by omega
  have noMark : c.atDocumentMark = false := Cursor.atDocumentMark_of_column (by omega)
  obtain ⟨candidates, saved, fades⟩ : ∃ candidates,
      (facing c indent outer keyAllowed ts).saveCandidate = some ⟨c, _, _, _, candidates, _⟩ ∧ _ :=
    exists_saveCandidate noKey
  have later : c.line < e.line :=
    h.line_lt (List.mem_append_right _ List.mem_cons_self) (by decide)
  have enough : (a :: s).length < c.rest.length + 1 := by
    rw [h.length_rest, List.length_append]
    omega
  have read : plainPieces false ((indent : Int) + 1).toNat (c.rest.length + 1) .none c =
      some (a :: s, true, e) :=
    plainPieces_eq (isPlain_of_plainHolds holds (List.cons_ne_nil a s)) h
      (.line d e.rest (by omega) begins.solid) noMark (by omega) enough
  refine ⟨⟨e, indent, outer, true, candidates, (ts ++ [_]).toArray⟩, ?_, rfl,
    rests_of_begins begins fades later⟩
  rw [token_plain holds (h.rest.trans (List.append_assoc _ _ _)) noMark, plainScalar, saved]
  have outsideFlow : inFlow ⟨c, indent, outer, keyAllowed, candidates, ts.toArray⟩ = false :=
    fades.inFlow
  simp only [outsideFlow, read, push, same, Option.bind_eq_bind, Option.bind_some,
    List.push_toArray]

/-! ## Scalars of all styles -/

/-- A scalar that its style holds becomes one token, and the lexer rests behind it. -/
theorem exists_token_scalar {s : Scalar} (fits : s.Fits)
    (h : c.Passes (s.line (indent + 2) ++ spaces d) e) (place : indent < c.column)
    (outside : d ≤ indent) (begins : Begins e.rest) :
    ∃ a l, c.rest.head? = some a ∧ (facing c indent outer keyAllowed ts).token a = some l ∧
      l.cursor.rest.length < c.rest.length ∧
      Rests l e indent outer (ts ++ [.scalar s.style s.text]) := by
  cases fits with
  | plain text nonempty holds =>
    have h : c.Passes (text.toList ++ '\n' :: spaces d) e := by simpa [Scalar.line] using h
    obtain ⟨a, t, letters⟩ := List.exists_cons_of_ne_nil nonempty
    obtain ⟨l, token, rfl, rests⟩ :
        ∃ l, (facing c indent outer keyAllowed ts).token a = some l ∧ _ :=
      exists_token_plain letters holds h place outside begins
    refine ⟨a, l, by rw [h.rest, letters]; rfl, token, ?_, rests⟩
    rw [h.length_rest]
    simp only [List.length_append, List.length_cons]
    omega
  | single text holds =>
    obtain ⟨l, first, token, shorter, rests⟩ : ∃ l, c.rest.head? = some (closing false) ∧
        (facing c indent outer keyAllowed ts).token _ = some l ∧ _ :=
      exists_token_quoted h place begins fun m fuel quote ends inside enough =>
        quoted_single holds quote (by rw [ends]; decide) inside (Nat.succ_ne_zero _)
          ((length_le_singleFrom (indent + 2) false text.toList).trans_lt enough)
    exact ⟨'\'', l, first, token, shorter, rests⟩
  | double text =>
    obtain ⟨l, first, token, shorter, rests⟩ : ∃ l, c.rest.head? = some (closing true) ∧
        (facing c indent outer keyAllowed ts).token _ = some l ∧ _ :=
      exists_token_quoted h place begins fun m fuel quote _ inside enough =>
        quoted_double quote inside
          ((length_le_flatMap fun a _ => doubleChar_ne_nil a).trans_lt enough)
    exact ⟨'"', l, first, token, shorter, rests⟩
  | literal text nonempty holds =>
    have parts : Scalar.line (indent + 2) ⟨text, .literal, none⟩ ++ spaces d =
        '|' :: (literalHint text.toList ++ literalChomp text.toList ++
          '\n' :: (literalLines (indent + 2) text.toList ++ spaces d)) := by
      simp [Scalar.line]
    rw [parts] at h
    obtain ⟨rest, tail⟩ := h.cons
    have read : Yaml.blockScalar false indent c.next = some (text.toList, e) :=
      blockScalar_literal rfl holds nonempty tail (by omega) begins.solid
    have later : c.line < e.line := h.line_lt (b := '\n') (by simp) (by decide)
    obtain ⟨l, token, rfl, rests⟩ :
        ∃ l, (facing c indent outer keyAllowed ts).token '|' = some l ∧ _ :=
      exists_token_literal (by omega) read begins later
    refine ⟨'|', l, by rw [rest]; rfl, token, ?_, rests⟩
    rw [h.length_rest]
    simp

end Lexer

end Misuse.Yaml
