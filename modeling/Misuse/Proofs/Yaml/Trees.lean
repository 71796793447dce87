import Misuse.Proofs.Yaml.Signs

/-!
# The tokens of trees

A tidy tree is written so that it is read again: its scalars are held by their styles, its lists are
lists of scalars, and its fields have names (`Tidy`). In the place of a value it yields its tokens
(`Lexes.of_tidy`), and so does a written record (`tokens?_block`).
-/

namespace Misuse.Yaml

inductive Tidy : Yaml → Prop
  | scalar (s : Scalar) (fits : s.Fits) : Tidy (.scalar s)
  | list (items : List Scalar) (fits : ∀ s ∈ items, s.Fits) : Tidy (.list (items.map .scalar))
  | record (fields : List (String × Yaml)) (nonempty : fields ≠ [])
    (names : ∀ f ∈ fields, IsName f.1) (values : ∀ f ∈ fields, Tidy f.2) : Tidy (.named fields)

mutual

/-- The tokens of a tree that is written as a value. -/
def tokens : Yaml → List Token
  | .scalar s => [.scalar s.style s.text]
  | .list [] => [.flowList, .flowListEnd]
  | .list (y :: ys) => .blockEntry :: tokens y ++ entryTokens ys
  | .record fs => .blockRecord :: fieldTokens fs ++ [.blockEnd]
  | .alias _ => []

def entryTokens : List Yaml → List Token
  | [] => []
  | y :: ys => .blockEntry :: tokens y ++ entryTokens ys

def fieldTokens : List (Yaml × Yaml) → List Token
  | [] => []
  | f :: fs => fieldTokensOf f ++ fieldTokens fs

def fieldTokensOf : Yaml × Yaml → List Token
  | (key, y) => .key :: tokens key ++ .value :: tokens y

end

/-- Fields with plain names. -/
def plainly (fields : List (String × Yaml)) : List (Yaml × Yaml) :=
  fields.map fun f => (plain f.1, f.2)

theorem named_eq (fields : List (String × Yaml)) : named fields = .record (plainly fields) := rfl

/-! ## Written fields -/

/-- A name stands in front of its colon. -/
theorem blockField_plain {name : String} (h : IsName name) (column : Nat) (y : Yaml) :
    blockField column (plain name, y) = name.toList ++ [':'] ++ blockValue column y := by
  have oneLine : (name.toList ++ ['\n']).filter isBreak = ['\n'] := by
    rw [List.filter_append,
      List.filter_eq_nil_iff.mpr fun a ha => by simp [h.isPlain.unbroken a ha]]
    rfl
  have key : simpleKey? (plain name) = some name.toList := by
    simp [simpleKey?, plain, Scalar.line, oneLine]
  simp [blockField, key]

theorem endsWord_blockValue (column : Nat) (y : Yaml) (u : List Char) :
    endsWord (blockValue column y ++ u) = true := by
  unfold blockValue
  split <;> rfl

/-! ## Values -/

namespace Lexer

variable {l : Lexer} {c e e' : Cursor} {column d : Nat} {outer : List Int} {keyAllowed : Bool}
  {ts out : List Token}

theorem yields_scalar {s : Scalar} (fits : s.Fits)
    (text : e.Passes (' ' :: s.line (column + 2) ++ spaces d) e') (place : column ≤ e.column)
    (outside : d ≤ column) (begins : Begins e'.rest)
    (later : ∀ l', e'.column = d → Rests l' e' column outer (ts ++ [.scalar s.style s.text]) →
      Yields l' out) : Yields (facing e column outer keyAllowed ts) out := by
  rw [List.cons_append] at text
  obtain ⟨rest, tail⟩ := text.cons
  have deeper : column < e.next.column := by
    rw [Cursor.column_next rest]
    simp only [isBreak_space, Bool.false_eq_true, ↓reduceIte]
    omega
  have begins' : Begins e.next.rest := by
    rw [tail.rest, List.append_assoc]
    exact fits.begins _ _
  obtain ⟨a, l', first, token, shorter, rests⟩ : ∃ a l', e.next.rest.head? = some a ∧
      (facing e.next column outer keyAllowed ts).token a = some l' ∧ _ :=
    exists_token_scalar fits tail deeper outside begins
  obtain ⟨r, hr⟩ := List.head?_eq_some_iff.mp first
  have longer := (Cursor.passes_singleton rest).length_rest
  obtain ⟨w, b, hw, line⟩ := fits.exists_line_end (column + 2)
  have place' : e'.column = d := by
    rw [hw, List.append_assoc] at tail
    exact tail.column_of_line_end line
  refine (later l' place' rests).of_token
    (ready_behind_space (Cursor.passes_singleton rest) begins' (by omega)) hr token ?_
  rw [cursor_facing]
  omega

/-- One entry of a list in the column of its field. -/
theorem Rests.yields_item {s : Scalar} (fits : s.Fits) (rests : Rests l c column outer ts)
    (here : c.column = column)
    (text : c.Passes ('-' :: (' ' :: s.line (column + 2) ++ spaces d)) e') (outside : d ≤ column)
    (begins : Begins e'.rest)
    (later : ∀ l', e'.column = d →
      Rests l' e' column outer (ts ++ [.blockEntry, .scalar s.style s.text]) → Yields l' out) :
    Yields l out := by
  obtain ⟨rest, tail⟩ := text.cons
  have column' : c.next.column = column + 1 := by
    rw [Cursor.column_next rest, here]
    rfl
  refine rests.yields_entry (by rw [here]) (Cursor.passes_singleton rest) (by rw [tail.rest]; rfl)
    (yields_scalar fits tail (by omega) outside begins fun l' place rests' => later l' place ?_)
  simpa using rests'

theorem blockItems_cons (y : Yaml) (ys : List Yaml) : blockItems column (y :: ys) =
    spaces column ++ ('-' :: (' ' :: block (column + 2) y ++ blockItems column ys)) := by
  simp [blockItems]

/-- Entries of a list in the column of its field. -/
theorem Rests.yields_items {s : Scalar} {ss : List Scalar} (fits : ∀ s' ∈ s :: ss, s'.Fits)
    (rests : Rests l c column outer ts) (here : c.column = column)
    (text : c.Passes ('-' :: (' ' :: s.line (column + 2) ++
      (blockItems column (ss.map .scalar) ++ spaces d))) e')
    (outside : d ≤ column) (begins : Begins e'.rest)
    (later : ∀ l', e'.column = d →
      Rests l' e' column outer (ts ++ entryTokens ((s :: ss).map .scalar)) → Yields l' out) :
    Yields l out := by
  induction ss generalizing s l c ts with
  | nil =>
    refine rests.yields_item (fits s List.mem_cons_self) here
      (by simpa [blockItems] using text) outside
      begins fun l' place rests' => later l' place ?_
    simpa [entryTokens, Yaml.tokens] using rests'
  | cons s' ss ih =>
    obtain ⟨first, others⟩ := List.forall_mem_cons.mp fits
    rw [List.map_cons, blockItems_cons, List.append_assoc, ← List.append_assoc (' ' :: _),
      ← List.cons_append, Cursor.passes_append_iff] at text
    obtain ⟨m, item, tail⟩ := text
    refine rests.yields_item first here item le_rfl
      (by rw [tail.rest]; exact begins_cons (by decide) _) ?_
    intro l' place rests'
    refine ih others rests' place ?_ ?_
    · simpa [block] using tail
    · intro l'' place' rests''
      refine later l'' place' ?_
      simpa [entryTokens, Yaml.tokens] using rests''

/-- Behind a colon the tree yields its tokens, and the lexer rests at the next line. -/
def Lexes (y : Yaml) : Prop :=
  ∀ (column d : Nat) (e e' : Cursor) (outer : List Int) (ts out : List Token),
    e.Passes (blockValue column y ++ spaces d) e' → column ≤ e.column → d ≤ column →
    Begins e'.rest →
    (∀ l', e'.column = d → Rests l' e' column outer (ts ++ Yaml.tokens y) → Yields l' out) →
    Yields (facing e column outer false ts) out

theorem lexes_scalar {s : Scalar} (fits : s.Fits) : Lexes (.scalar s) := by
  intro column d e e' outer ts out text place outside begins later
  refine yields_scalar fits ?_ place outside begins fun l' place' rests => later l' place' ?_
  · simpa [blockValue, block] using text
  · simpa [Yaml.tokens] using rests

theorem lexes_list {items : List Scalar} (fits : ∀ s ∈ items, s.Fits) :
    Lexes (.list (items.map .scalar)) := by
  intro column d e e' outer ts out text place outside begins later
  cases items with
  | nil =>
    refine yields_emptyList (by simpa [blockValue, block] using text) place begins
      fun l' place' rests => later l' place' ?_
    simpa [Yaml.tokens] using rests
  | cons s ss =>
    have parts : blockValue column (.list ((s :: ss).map .scalar)) ++ spaces d =
        '\n' :: spaces column ++ ('-' :: (' ' :: s.line (column + 2) ++
          (blockItems column (ss.map .scalar) ++ spaces d))) := by
      simp [blockValue, block]
    rw [parts] at text
    obtain ⟨c, line, tail⟩ := Cursor.passes_append_iff.mp text
    have here : c.column = column :=
      Cursor.Passes.column_of_breaks line (List.forall_mem_singleton.mpr isBreak_newline)
        (List.cons_ne_nil _ [])
    have dash : Begins c.rest := tail.rest ▸ begins_cons (by decide) _
    refine (rests_facing line dash).yields_items fits here tail outside begins
      fun l' place' rests => later l' place' ?_
    simpa [Yaml.tokens, entryTokens] using rests

theorem blockFields_cons {f : String × Yaml} (name : IsName f.1) (fs : List (String × Yaml)) :
    blockFields column (plainly (f :: fs)) = spaces column ++ (f.1.toList ++ [':'] ++
      (blockValue column f.2 ++ blockFields column (plainly fs))) := by
  simp [plainly, blockFields, blockField_plain name]

/-- One field, the first one perhaps with the block that it opens. -/
theorem Rests.yields_field {indent : Int} {outer' : List Int} {opened : List Token} {name : String}
    {y : Yaml} (h : IsName name) (value : Lexes y) (rests : Rests l c indent outer ts)
    (here : c.column = column) (opening : Opening indent outer column opened outer')
    (text : c.Passes (name.toList ++ [':'] ++ (blockValue column y ++ spaces d)) e')
    (outside : d ≤ column) (begins : Begins e'.rest)
    (later : ∀ l', e'.column = d →
      Rests l' e' column outer' (ts ++ (opened ++ fieldTokensOf (plain name, y))) → Yields l' out) :
    Yields l out := by
  obtain ⟨e, key, tail⟩ := Cursor.passes_append_iff.mp text
  subst here
  have ends : endsWord e.rest = true := by
    rw [tail.rest, List.append_assoc]
    exact endsWord_blockValue _ y _
  have place : c.column ≤ e.column := by
    rw [key.column_of_unbroken]
    · exact Nat.le_add_right _ _
    · simpa [or_imp, forall_and, isBreak] using h.isPlain.unbroken
  refine rests.yields_key h key ends opening
    (value _ d e e' outer' _ out tail place outside begins fun l' place' rests' =>
      later l' place' ?_)
  simpa [fieldTokensOf, Yaml.tokens, plain] using rests'

/-- The fields of a record. The first one may open its block. -/
theorem Rests.yields_fields {indent : Int} {outer' : List Int} {opened : List Token}
    {f : String × Yaml} {fs : List (String × Yaml)} (names : ∀ f' ∈ f :: fs, IsName f'.1)
    (values : ∀ f' ∈ f :: fs, Lexes f'.2) (rests : Rests l c indent outer ts)
    (here : c.column = column)
    (opening : Opening indent outer column opened outer')
    (text : c.Passes (f.1.toList ++ [':'] ++
      (blockValue column f.2 ++ (blockFields column (plainly fs) ++ spaces d))) e')
    (outside : d ≤ column) (begins : Begins e'.rest)
    (later : ∀ l', e'.column = d →
      Rests l' e' column outer' (ts ++ (opened ++ fieldTokens (plainly (f :: fs)))) →
        Yields l' out) :
    Yields l out := by
  induction fs generalizing f l c ts indent outer opened with
  | nil =>
    have text : c.Passes (f.1.toList ++ [':'] ++ (blockValue column f.2 ++ spaces d)) e' := by
      simpa [plainly, blockFields] using text
    refine rests.yields_field (names f List.mem_cons_self) (values f List.mem_cons_self) here
      opening text outside begins fun l' place rests' => later l' place ?_
    simpa [plainly, fieldTokens] using rests'
  | cons f' fs ih =>
    obtain ⟨name, names⟩ := List.forall_mem_cons.mp names
    obtain ⟨value, values⟩ := List.forall_mem_cons.mp values
    have parts : f.1.toList ++ [':'] ++ (blockValue column f.2 ++
        (blockFields column (plainly (f' :: fs)) ++ spaces d)) =
          (f.1.toList ++ [':'] ++ (blockValue column f.2 ++ spaces column)) ++
          (f'.1.toList ++ [':'] ++
            (blockValue column f'.2 ++ (blockFields column (plainly fs) ++ spaces d))) := by
      simp [blockFields_cons (names f' List.mem_cons_self)]
    rw [parts] at text
    obtain ⟨m, first, tail⟩ := Cursor.passes_append_iff.mp text
    have begins' : Begins m.rest := by
      rw [tail.rest, List.append_assoc, List.append_assoc]
      exact (names f' List.mem_cons_self).begins _
    refine rests.yields_field name value here opening first le_rfl begins' fun l' place rests' =>
      ih names values rests' place (.same rfl) tail fun l'' place' rests'' => later l'' place' ?_
    simpa [plainly, fieldTokens] using rests''

theorem lexes_record {fields : List (String × Yaml)} (nonempty : fields ≠ [])
    (names : ∀ f ∈ fields, IsName f.1) (values : ∀ f ∈ fields, Lexes f.2) :
    Lexes (.named fields) := by
  intro column d e e' outer ts out text place outside begins later
  obtain ⟨f, fs, rfl⟩ := List.exists_cons_of_ne_nil nonempty
  have parts : blockValue column (named (f :: fs)) ++ spaces d =
      '\n' :: spaces (column + 2) ++ (f.1.toList ++ [':'] ++
        (blockValue (column + 2) f.2 ++ (blockFields (column + 2) (plainly fs) ++ spaces d))) := by
    simp [named_eq, plainly, blockValue, blockField_plain (names f List.mem_cons_self)]
  rw [parts] at text
  obtain ⟨c, line, tail⟩ := Cursor.passes_append_iff.mp text
  have here : c.column = column + 2 :=
    Cursor.Passes.column_of_breaks line (List.forall_mem_singleton.mpr isBreak_newline)
        (List.cons_ne_nil _ [])
  have begins' : Begins c.rest := by
    rw [tail.rest, List.append_assoc, List.append_assoc]
    exact (names f List.mem_cons_self).begins _
  refine (rests_facing line begins').yields_fields names values here (.deeper (by omega)) tail
    (by omega)
    begins fun l' place' rests => later l' place' ?_
  have closed := rests.closed (by omega)
  simpa [Yaml.tokens, named_eq] using closed

/-- In the place of a value a tidy tree yields its tokens. -/
theorem Lexes.of_tidy {y : Yaml} (tidy : Tidy y) : Lexes y := by
  induction tidy with
  | scalar s fits => exact lexes_scalar fits
  | list items fits => exact lexes_list fits
  | record fields nonempty names values ih => exact lexes_record nonempty names ih

end Lexer

/-! ## What is written -/

theorem isAllowed_of_isPrintable {a : Char} (h : isPrintable a = true) : isAllowed a = true := by
  simp only [isPrintable, isAllowed, Bool.or_eq_true, Bool.and_eq_true, beq_iff_eq, bne_iff_ne,
    decide_eq_true_eq] at h ⊢
  tauto

theorem normalBreaks_eq {s : List Char} (shown : ∀ a ∈ s, isPrintable a = true) :
    normalBreaks s = s := by
  induction s with
  | nil => rfl
  | cons a s ih =>
    obtain ⟨first, shown⟩ := List.forall_mem_cons.mp shown
    have other (b : Char) (hidden : isPrintable b = false) : a ≠ b := by
      rintro rfl
      exact Bool.false_ne_true (hidden.symm.trans first)
    have noReturn := other '\r' (by decide)
    have noNext := other '\u0085' (by decide)
    unfold normalBreaks
    split <;> simp_all

section

variable {column : Nat}

theorem blockItems_shown {items : List Scalar} (fits : ∀ s ∈ items, s.Fits) :
    ∀ a ∈ blockItems column (items.map .scalar), isPrintable a = true := by
  have dash : isPrintable '-' = true := by decide
  induction items with
  | nil => simp [blockItems]
  | cons s items ih =>
    obtain ⟨first, fits⟩ := List.forall_mem_cons.mp fits
    simp only [List.map_cons, blockItems, block, List.forall_mem_append, List.forall_mem_cons]
    exact ⟨⟨spaces_shown _, dash, isPrintable_space, first.shown _⟩, ih fits⟩

theorem blockFields_shown {fields : List (String × Yaml)} (names : ∀ f ∈ fields, IsName f.1)
    (values : ∀ f ∈ fields, ∀ column, ∀ a ∈ blockValue column f.2, isPrintable a = true) :
    ∀ a ∈ blockFields column (plainly fields), isPrintable a = true := by
  have colon : isPrintable ':' = true := by decide
  induction fields with
  | nil => simp [plainly, blockFields]
  | cons f fields ih =>
    obtain ⟨name, names⟩ := List.forall_mem_cons.mp names
    obtain ⟨value, values⟩ := List.forall_mem_cons.mp values
    have letters := isPrintable_of_isTame (isTame_of_plainHolds name.holds)
    simp only [Lexer.blockFields_cons name, List.forall_mem_append, List.forall_mem_singleton]
    exact ⟨spaces_shown _, ⟨letters, colon⟩, value column, ih names values⟩

/-- Every character that is written can be shown. -/
theorem Tidy.shown {y : Yaml} (tidy : Tidy y) (column : Nat) :
    ∀ a ∈ blockValue column y, isPrintable a = true := by
  induction tidy generalizing column with
  | scalar s fits =>
    simp only [blockValue, block, List.forall_mem_cons]
    exact ⟨isPrintable_space, fits.shown _⟩
  | list items fits =>
    cases items with
    | nil =>
      have brackets : ("[]\n".toList.all isPrintable) = true := by decide
      simp only [List.map_nil, blockValue, block, List.forall_mem_cons]
      exact ⟨isPrintable_space, List.all_eq_true.mp brackets⟩
    | cons s items =>
      have whole : blockValue column (.list ((s :: items).map .scalar)) =
          '\n' :: blockItems column ((s :: items).map .scalar) := by
        simp [blockValue, blockItems]
      rw [whole, List.forall_mem_cons]
      exact ⟨isPrintable_newline, blockItems_shown fits⟩
  | record fields nonempty names values ih =>
    obtain ⟨f, fields, rfl⟩ := List.exists_cons_of_ne_nil nonempty
    have whole : blockValue column (named (f :: fields)) =
        '\n' :: blockFields (column + 2) (plainly (f :: fields)) := by
      simp [named_eq, plainly, blockValue, blockFields]
    rw [whole, List.forall_mem_cons]
    exact ⟨isPrintable_newline, blockFields_shown names ih⟩

end

/-! ## Documents -/

theorem block_named {fields : List (String × Yaml)} (nonempty : fields ≠ []) :
    block 0 (named fields) = blockFields 0 (plainly fields) := by
  obtain ⟨f, fields, rfl⟩ := List.exists_cons_of_ne_nil nonempty
  simp [named_eq, plainly, block, blockFields, spaces]

/-- From its beginning on, a written record yields the tokens of its tree. -/
theorem Lexer.yields_block {fields : List (String × Yaml)} (nonempty : fields ≠ [])
    (names : ∀ f ∈ fields, IsName f.1) (values : ∀ f ∈ fields, Tidy f.2) :
    Lexer.Yields (.facing ⟨block 0 (named fields), 0, 0, 0⟩ (-1) [] true [])
      (Yaml.tokens (named fields)) := by
  obtain ⟨f, fs, rfl⟩ := List.exists_cons_of_ne_nil nonempty
  have parts : block 0 (named (f :: fs)) = f.1.toList ++ [':'] ++
      (blockValue 0 f.2 ++ (blockFields 0 (plainly fs) ++ spaces 0)) := by
    rw [block_named nonempty, blockFields_cons (names f List.mem_cons_self)]
    simp [spaces]
  have begins : Begins (block 0 (named (f :: fs))) := by
    rw [parts, List.append_assoc]
    exact (names f List.mem_cons_self).begins _
  obtain ⟨e, text, rest⟩ :
      ∃ e, Cursor.Passes ⟨block 0 (named (f :: fs)), 0, 0, 0⟩ _ e ∧ e.rest = [] :=
    Cursor.exists_passes (parts.trans (List.append_nil _).symm)
  have ends : Begins e.rest := by simp [rest, Begins]
  refine (rests_of_allowed begins).yields_fields names (fun f hf => Lexes.of_tidy (values f hf)) rfl
    (.deeper (Int.negSucc_lt_zero 0)) text le_rfl ends fun l place rests => ?_
  simpa [Yaml.tokens, named_eq] using rests.yields_end rest

/-- A written record has the tokens of its tree. -/
theorem tokens?_block {fields : List (String × Yaml)} (nonempty : fields ≠ [])
    (names : ∀ f ∈ fields, IsName f.1) (values : ∀ f ∈ fields, Tidy f.2) :
    tokens? (block 0 (named fields)) = some (tokens (named fields)) := by
  have shown : ∀ a ∈ block 0 (named fields), isPrintable a = true := by
    rw [block_named nonempty]
    exact blockFields_shown names fun f hf column => (values f hf).shown column
  have allowed : (block 0 (named fields)).all isAllowed = true :=
    List.all_eq_true.mpr fun a ha => isAllowed_of_isPrintable (shown a ha)
  have start : Lexer.start (block 0 (named fields)) =
      .facing ⟨block 0 (named fields), 0, 0, 0⟩ (-1) [] true [] := by
    rw [Lexer.start, Cursor.start, normalBreaks_eq shown]
    rfl
  rw [tokens?, if_pos allowed, start]
  exact Lexer.yields_block nonempty names values _ (Nat.lt_succ_self _)

end Misuse.Yaml
