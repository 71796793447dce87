import Misuse.Proofs.Yaml.Scalars

/-!
# The tokens of keys, entries and empty lists

A name in front of a colon becomes the key of a field, and opens a block where it stands deeper than
the innermost one (`Opening`, `Rests.yields_key`).
-/

namespace Misuse.Yaml

/-- A name that can stand for a key: it begins with a letter, and a later colon is within reach of
it. -/
structure IsName (name : String) : Prop where
  holds : plainHolds name.toList = true
  letter : ∃ a ∈ name.toList.head?, a.isAlpha = true
  short : name.toList.length ≤ 256

theorem isName_iff (name : String) : IsName name ↔ plainHolds name.toList = true ∧
    name.toList.head?.any Char.isAlpha = true ∧ name.toList.length ≤ 256 := by
  rw [Option.any_eq_true]
  exact ⟨fun h => ⟨h.holds, h.letter, h.short⟩,
    fun ⟨holds, letter, short⟩ => ⟨holds, letter, short⟩⟩

instance (name : String) : Decidable (IsName name) := decidable_of_iff' _ (isName_iff name)

theorem IsName.isPlain {name : String} (h : IsName name) : IsPlain name.toList := by
  obtain ⟨a, ha, -⟩ := h.letter
  exact isPlain_of_plainHolds h.holds (List.ne_nil_of_mem (List.mem_of_head? ha))

theorem IsName.begins {name : String} (h : IsName name) (u : List Char) :
    Begins (name.toList ++ u) := by
  obtain ⟨a, ha, letter⟩ := h.letter
  obtain ⟨t, ht⟩ := List.head?_eq_some_iff.mp ha
  have other (b : Char) (noLetter : b.isAlpha = false) : a ≠ b := by
    rintro rfl
    exact Bool.false_ne_true (noLetter.symm.trans letter)
  rw [ht]
  exact begins_cons ⟨h.isPlain.first a ha, other '#' (by decide), other '\ufeff' (by decide)⟩ _

theorem IsName.noMark {name : String} (h : IsName name) {c : Cursor} {u : List Char}
    (rest : c.rest = name.toList ++ u) : c.atDocumentMark = false := by
  obtain ⟨a, ha, letter⟩ := h.letter
  obtain ⟨t, ht⟩ := List.head?_eq_some_iff.mp ha
  rw [ht] at rest
  have other (mark : Char) (noLetter : mark.isAlpha = false) : a ≠ mark := by
    rintro rfl
    exact Bool.false_ne_true (noLetter.symm.trans letter)
  simp [Cursor.atDocumentMark, Cursor.atMark, rest, (other '-' (by decide)).symm,
    (other '.' (by decide)).symm]

namespace Lexer

variable {l : Lexer} {c e m : Cursor} {indent : Int} {outer outer' : List Int} {keyAllowed : Bool}
  {ts opened out : List Token}

/-! ## Tokens in front of others -/

theorem insertAt_facing (us : List Token) (t : Token) :
    (facing c indent outer keyAllowed (ts ++ us)).insertAt ts.length t =
      facing c indent outer keyAllowed (ts ++ t :: us) := by
  simp [insertAt, facing]

theorem roll_facing_same {column : Nat} {index : Option Nat} {t : Token} (here : indent = column) :
    (facing c indent outer keyAllowed ts).roll column index t =
      facing c indent outer keyAllowed ts := by
  simp [roll, facing, here]

theorem roll_facing_deeper {column index : Nat} {t : Token} (inside : indent < column) :
    (facing c indent outer keyAllowed ts).roll column (some index) t =
      (facing c column (indent :: outer) keyAllowed ts).insertAt index t := by
  have outside : ¬ (column : Int) ≤ indent := Int.not_le.mpr inside
  have closed : ¬((facing c indent outer keyAllowed ts).inFlow
      || decide ((column : Int) ≤ (facing c indent outer keyAllowed ts).indent)) = true := by
    rw [inFlow_facing, Bool.false_or, decide_eq_true_iff]
    exact outside
  rw [roll, if_neg closed]
  rfl

/-- What a field opens: nothing in the column of the innermost block, else a block. -/
inductive Opening (indent : Int) (outer : List Int) (column : Nat) : List Token → List Int → Prop
  | same (here : indent = column) : Opening indent outer column [] outer
  | deeper (inside : indent < column) : Opening indent outer column [.blockRecord] (indent :: outer)

theorem Opening.le {column : Nat} (h : Opening indent outer column opened outer') :
    indent ≤ column := by
  cases h with
  | same here => exact Int.le_of_eq here
  | deeper inside => exact Int.le_of_lt inside

theorem value_eq {k : Candidate} {t : Token} (opening : Opening indent outer k.column opened outer')
    (index : k.index = ts.length) :
    value ⟨m, indent, outer, false, [some k], (ts ++ [t]).toArray⟩ =
      some (facing m.next k.column outer' false (ts ++ (opened ++ [.key, t, .value]))) := by
  have key : insertAt ⟨m, indent, outer, false, [none], (ts ++ [t]).toArray⟩ k.index .key =
      facing m indent outer false (ts ++ [.key, t]) := index ▸ insertAt_facing [t] .key
  simp only [value, key]
  cases opening with
  | same here =>
    rw [roll_facing_same here, ← here]
    simp [sign, facing, push]
  | deeper inside =>
    rw [roll_facing_deeper inside, index, insertAt_facing]
    simp [sign, facing, push]

/-! ## Keys -/

/-- What a name becomes while nothing is known of the colon. -/
theorem token_name {name : String} {a : Char} {r : List Char} (h : IsName name)
    (first : name.toList.head? = some a) (text : c.Passes name.toList m) (colon : m.rest = ':' :: r)
    (ends : endsWord r = true) (inside : indent ≤ c.column) :
    (facing c indent outer true ts).token a =
      some ⟨m, indent, outer, false,
        [some ⟨ts.length, c.offset, c.line, c.column, indent == c.column⟩],
        (ts ++ [Token.scalar .plain name]).toArray⟩ := by
  obtain ⟨s, hs⟩ := List.head?_eq_some_iff.mp first
  have noMark := h.noMark text.rest
  have holds := h.holds
  have same : String.ofList (a :: s) = name := hs ▸ String.ofList_toList
  rw [hs] at holds text
  have read : plainPieces false (indent + 1).toNat (c.rest.length + 1) .none c =
      some (a :: s, false, m) := by
    refine plainPieces_eq (g := [])
      (isPlain_of_plainHolds holds (List.cons_ne_nil a s)) ?_ ?_ noMark
      (by omega) ?_
    · rwa [List.append_nil]
    · exact colon ▸ .colon r ends
    · rw [text.length_rest]
      omega
  rw [token_plain holds text.rest noMark, plainScalar]
  simp [saveCandidate, dropCandidate, facing, inFlow, read, push, same]

/-- A candidate on the line of its colon stays one if the colon is within reach. -/
theorem ready_candidate {k : Candidate} {r : List Char} (colon : m.rest = ':' :: r)
    (line : k.line = m.line) (reach : m.offset ≤ k.offset + keyReach) (inside : indent ≤ m.column) :
    ready ⟨m, indent, outer, false, [some k], ts.toArray⟩ =
      some ⟨m, indent, outer, false, [some k], ts.toArray⟩ := by
  have begins : Begins m.rest := colon ▸ begins_cons (by decide) r
  have fresh : ¬(k.line < m.line ∨ k.offset + keyReach < m.offset) := by omega
  have kept : dropStale ⟨m, indent, outer, false, [some k], ts.toArray⟩ =
      some ⟨m, indent, outer, false, [some k], ts.toArray⟩ := by
    simp [dropStale, fresh]
  rw [ready, skipGap_of_begins begins, kept, Option.map_some, unrollTo, unroll.eq_def]
  simp [inside]

/-- At the colon, the candidate becomes a key. -/
theorem yields_colon {k : Candidate} {r : List Char} {t : Token} (colon : m.rest = ':' :: r)
    (ends : endsWord r = true) (line : k.line = m.line) (reach : m.offset ≤ k.offset + keyReach)
    (column : k.column < m.column) (index : k.index = ts.length)
    (opening : Opening indent outer k.column opened outer')
    (later :
      Yields (facing m.next k.column outer' false (ts ++ (opened ++ [.key, t, .value]))) out) :
    Yields ⟨m, indent, outer, false, [some k], (ts ++ [t]).toArray⟩ out := by
  have inside := opening.le
  have place : m.column ≠ 0 := by omega
  have alone : m.next.atWordEnd = true := by
    rwa [Cursor.atWordEnd_eq, Cursor.rest_next, colon]
  have token : Lexer.token ⟨m, indent, outer, false, [some k], (ts ++ [t]).toArray⟩ ':' =
      value ⟨m, indent, outer, false, [some k], (ts ++ [t]).toArray⟩ := by
    simp [Lexer.token, Cursor.atMark, place, alone]
  refine later.of_token (ready_candidate colon line reach (by omega)) colon
    (token.trans (value_eq opening index)) ?_
  rw [cursor_facing, Cursor.rest_next, colon]
  exact Nat.lt_succ_self _

/-- A name in front of a colon becomes a key. -/
theorem Rests.yields_key {name : String} (rests : Rests l c indent outer ts) (h : IsName name)
    (text : c.Passes (name.toList ++ [':']) e) (ends : endsWord e.rest = true)
    (opening : Opening indent outer c.column opened outer')
    (later : Yields (facing e c.column outer' false
      (ts ++ (opened ++ [.key, .scalar .plain name, .value]))) out) : Yields l out := by
  obtain ⟨m, word, tail⟩ := Cursor.passes_append_iff.mp text
  obtain ⟨colon, behind⟩ := tail.cons
  obtain rfl := Cursor.passes_nil_iff.mp behind
  obtain ⟨a, first, -⟩ := h.letter
  obtain ⟨s, hs⟩ := List.head?_eq_some_iff.mp first
  have unbroken := h.isPlain.unbroken
  have wide := List.length_pos_iff.mpr h.isPlain.nonempty
  have column := word.column_of_unbroken unbroken
  have line : c.line = m.line := by
    rw [word.line, List.countP_eq_zero.mpr fun a ha => by simp [unbroken a ha], Nat.add_zero]
  have reach : m.offset ≤ c.offset + keyReach := by
    have bytes := word.offset_le
    have short := h.short
    rw [keyReach]
    omega
  have shorter := word.length_rest
  exact rests.yields opening.le (by rw [word.rest, hs]; rfl)
    (token_name h first word colon ends opening.le)
    (Nat.lt_of_lt_of_eq (Nat.lt_add_of_pos_left wide) shorter.symm)
    (yields_colon colon ends line reach (by simp only; omega) rfl opening later)

/-! ## Entries -/

/-- A dash in the column of the innermost block is an entry of a list that has no block of its
own. -/
theorem Rests.yields_entry (rests : Rests l c indent outer ts) (here : indent = c.column)
    (text : c.Passes ['-'] e) (gap : e.rest.head? = some ' ')
    (later : Yields (facing e indent outer true (ts ++ [.blockEntry])) out) : Yields l out := by
  obtain ⟨r, hr⟩ := List.head?_eq_some_iff.mp gap
  obtain ⟨rest, behind⟩ := text.cons
  obtain rfl := Cursor.passes_nil_iff.mp behind
  rw [List.nil_append, hr] at rest
  have alone : c.next.atWordEnd = true := by
    rw [Cursor.atWordEnd_eq, hr]
    rfl
  have token : (facing c indent outer true ts).token '-' =
      some (facing c.next indent outer true (ts ++ [.blockEntry])) := by
    have entry : (facing c indent outer true ts).blockEntry =
        some (facing c.next indent outer true (ts ++ [.blockEntry])) := by
      rw [blockEntry, cursor_facing, roll_facing_same here]
      simp [facing, dropCandidate, sign, push]
    simp [Lexer.token, Cursor.atMark, rest, alone, entry]
  refine rests.yields (Int.le_of_eq here) rest token ?_ later
  rw [cursor_facing, hr, rest]
  exact Nat.lt_succ_self _

/-! ## Empty lists -/

/-- Between the brackets of an empty list. -/
theorem exists_token_bracket {m₂ : Cursor} (inside : c.column ≠ 0) (opens : c.Passes ['['] m)
    (closes : m.Passes [']'] m₂) :
    ∃ l, (facing c indent outer false ts).token '[' = some l ∧ l.cursor = m ∧ l.ready = some l ∧
      l.token ']' = some (facing m₂ indent outer false (ts ++ [.flowList, .flowListEnd])) := by
  have rest := opens.rest
  have rest' := closes.rest
  obtain rfl := Cursor.passes_nil_iff.mp opens.cons.2
  obtain rfl := Cursor.passes_nil_iff.mp closes.cons.2
  have inside' : c.next.column ≠ 0 := by
    rw [Cursor.column_next rest]
    exact Nat.succ_ne_zero _
  have begins : Begins c.next.rest := rest' ▸ begins_cons (by decide) _
  refine ⟨⟨c.next, indent, outer, true, [none, none], (ts ++ [Token.flowList]).toArray⟩,
    ?_, rfl, ?_, ?_⟩
  · simp [Lexer.token, Cursor.atMark, inside, flowStart, saveCandidate, facing, sign, push]
  · have fresh : dropStale ⟨c.next, indent, outer, true, [none, none],
        (ts ++ [Token.flowList]).toArray⟩ =
          some ⟨c.next, indent, outer, true, [none, none], (ts ++ [Token.flowList]).toArray⟩ := rfl
    rw [ready, skipGap_of_begins begins, fresh, Option.map_some, unrollTo, unroll.eq_def]
    simp [inFlow]
  · simp [Lexer.token, Cursor.atMark, inside', flowEnd, dropCandidate, inFlow, sign, push, facing]

/-- An empty list is written in brackets. -/
theorem yields_emptyList {indent d : Nat} (text : c.Passes (" []\n".toList ++ spaces d) e)
    (place : indent ≤ c.column) (begins : Begins e.rest)
    (later : ∀ l', e.column = d → Rests l' e indent outer (ts ++ [.flowList, .flowListEnd]) →
      Yields l' out) : Yields (facing c indent outer false ts) out := by
  have text : c.Passes ([' '] ++ (['['] ++ ([']'] ++ '\n' :: spaces d))) e := text
  obtain ⟨c₀, space, tail⟩ := Cursor.passes_append_iff.mp text
  obtain ⟨m, opens, tail⟩ := Cursor.passes_append_iff.mp tail
  obtain ⟨m₂, closes, ends⟩ := Cursor.passes_append_iff.mp tail
  have column : e.column = d :=
    Cursor.Passes.column_of_breaks ends (List.forall_mem_singleton.mpr isBreak_newline)
      (List.cons_ne_nil _ [])
  have column₀ : c₀.column = c.column + 1 :=
    space.column_of_unbroken (List.forall_mem_singleton.mpr isBreak_space)
  obtain ⟨l, atOpen, rfl, between, atClose⟩ :
      ∃ l, (facing c₀ indent outer false ts).token '[' = some l ∧ _ :=
    exists_token_bracket (by omega) opens closes
  have behind : Yields (facing m₂ indent outer false (ts ++ [.flowList, .flowListEnd])) out :=
    later _ column (rests_facing ends begins)
  have inside : (indent : Int) ≤ c₀.column := by omega
  have begins₀ : Begins c₀.rest := opens.rest ▸ begins_cons (by decide) _
  have ready : (facing c indent outer false ts).ready = some (facing c₀ indent outer false ts) :=
    ready_behind_space space begins₀ inside
  refine (behind.of_token between closes.rest atClose ?_).of_token ready opens.rest atOpen ?_
  · simp [closes.rest]
  · rw [cursor_facing, space.length_rest, opens.length_rest, List.length_singleton,
      List.length_singleton]
    omega

end Lexer

end Misuse.Yaml
