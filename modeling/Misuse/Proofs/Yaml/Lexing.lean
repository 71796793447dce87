import Misuse.Proofs.Yaml.Lines
import Misuse.Proofs.Yaml.Quotes
import Misuse.Yaml.Lexer

/-!
# The tokens of a lexer

What a lexer yields is told token by token (`Yields.of_token`). Behind a value the lexer rests at
the next line (`Rests`), where the blocks that are deeper are closed (`Rests.closed`).
-/

namespace Misuse.Yaml

/-- A token begins here, or the text ends. -/
def Begins (s : List Char) : Prop := ∀ a ∈ s.head?, isSolid a = true ∧ a ≠ '#' ∧ a ≠ '\ufeff'

theorem begins_cons {a : Char} (h : isSolid a = true ∧ a ≠ '#' ∧ a ≠ '\ufeff') (s : List Char) :
    Begins (a :: s) := by
  intro b hb
  rwa [← Option.some.inj hb]

theorem Begins.solid {s : List Char} (h : Begins s) : Solid s := fun a ha => (h a ha).1

namespace Lexer

/-- The lexer outside of flow collections, with no candidate for a key. -/
def facing (c : Cursor) (indent : Int) (outer : List Int) (keyAllowed : Bool) (ts : List Token) :
    Lexer :=
  ⟨c, indent, outer, keyAllowed, [none], ts.toArray⟩

variable {l l₁ l₂ : Lexer} {c e m : Cursor} {indent : Int} {outer : List Int} {keyAllowed : Bool}
  {ts out : List Token} {fuel : Nat}

@[simp] theorem cursor_facing : (facing c indent outer keyAllowed ts).cursor = c := rfl

@[simp] theorem inFlow_facing : (facing c indent outer keyAllowed ts).inFlow = false := rfl

/-! ## Gaps -/

theorem skipGap_of_begins (h : Begins l.cursor.rest) : skipGap fuel l = l := by
  cases fuel with
  | zero => rfl
  | succ fuel =>
    rw [skipGap]
    cases hr : l.cursor.rest with
    | nil => rfl
    | cons a r =>
      obtain ⟨solid, noHash, noMark⟩ := h a (by rw [hr]; rfl)
      obtain ⟨gap, line⟩ := (isSolid_iff a).mp solid
      simp only [isGap, Bool.or_eq_false_iff, beq_eq_false_iff_ne] at gap
      simp [gap, line, noHash, noMark]

theorem skipGap_spaces {n : Nat} (h : l.cursor.Passes (spaces n) e) :
    skipGap (n + fuel) l = skipGap fuel { l with cursor := e } := by
  induction n generalizing l with
  | zero =>
    obtain rfl := Cursor.passes_nil_iff.mp h
    rw [Nat.zero_add]
  | succ n ih =>
    obtain ⟨rest, tail⟩ := h.cons
    rw [Nat.add_right_comm, skipGap, rest]
    simp only [beq_self_eq_true, Bool.or_true, Bool.true_or, ↓reduceIte]
    exact ih tail

/-- A gap between two tokens: spaces, or a line end and spaces. -/
theorem skipGap_line {n : Nat} (h : l.cursor.Passes ('\n' :: spaces n) e) (begins : Begins e.rest) :
    skipGap (l.cursor.rest.length + 1) l =
      { l with cursor := e, keyAllowed := l.keyAllowed || !l.inFlow } := by
  obtain ⟨rest, tail⟩ := h.cons
  have room : l.cursor.rest.length = n + (e.rest.length + 1) := by
    simp only [rest, List.length_cons, List.length_append, spaces, List.length_replicate]
    omega
  have first : skipGap (l.cursor.rest.length + 1) l = skipGap l.cursor.rest.length
      { l with cursor := l.cursor.next, keyAllowed := l.keyAllowed || !l.inFlow } := by
    rw [skipGap, rest]
    simp [isBreak_newline]
  rw [first, room, skipGap_spaces tail, skipGap_of_begins begins]

/-! ## What a lexer yields -/

/-- The lexer in front of its next token. -/
def ready (l : Lexer) : Option Lexer :=
  (skipGap (l.cursor.rest.length + 1) l).dropStale.map fun l => l.unrollTo l.cursor.column

/-- All tokens from here on. -/
def Yields (l : Lexer) (out : List Token) : Prop :=
  ∀ fuel, l.cursor.rest.length < fuel → l.run fuel = some out

theorem Yields.of_token {a : Char} {r : List Char} (h : Yields l₂ out) (ready : l.ready = some l₁)
    (rest : l₁.cursor.rest = a :: r) (token : l₁.token a = some l₂)
    (shorter : l₂.cursor.rest.length < l.cursor.rest.length) : Yields l out := by
  intro fuel enough
  obtain ⟨fuel, rfl⟩ := Nat.exists_eq_add_one.mpr (Nat.zero_lt_of_lt enough)
  obtain ⟨l', fresh, rfl⟩ := Option.map_eq_some_iff.mp ready
  simp only [run, fresh, rest, token, Option.bind_eq_bind, Option.bind_some]
  exact h fuel (by omega)

theorem Yields.of_end (ready : l.ready = some l₁) (rest : l₁.cursor.rest = [])
    (ends : (l₁.unrollTo (-1)).dropCandidate = some l₂) : Yields l l₂.tokens.toList := by
  intro fuel enough
  obtain ⟨fuel, rfl⟩ := Nat.exists_eq_add_one.mpr (Nat.zero_lt_of_lt enough)
  obtain ⟨l', fresh, rfl⟩ := Option.map_eq_some_iff.mp ready
  simp only [run, fresh, rest, ends, Option.bind_eq_bind, Option.bind_some]

/-! ## Candidates -/

/-- There is no candidate, or one on this line that need not become a key. -/
def Fades (candidates : List (Option Candidate)) (line : Nat) : Prop :=
  candidates = [none] ∨ ∃ k, candidates = [some k] ∧ k.required = false ∧ k.line = line

theorem Fades.inFlow {line : Nat} (h : Fades l.candidates line) : l.inFlow = false := by
  rcases h with h | ⟨k, h, -⟩ <;> simp [Lexer.inFlow, h]

/-- On a later line it is forgotten. -/
theorem dropStale_of_fades {line : Nat} (h : Fades l.candidates line)
    (later : line < l.cursor.line) :
    l.dropStale = some { l with candidates := [none] } := by
  rcases h with h | ⟨k, h, notRequired, rfl⟩
  · simp [dropStale, h]
  · simp [dropStale, h, notRequired, later]

theorem exists_saveCandidate (noKey : indent ≠ c.column) :
    ∃ candidates, (facing c indent outer keyAllowed ts).saveCandidate =
        some ⟨c, indent, outer, keyAllowed, candidates, ts.toArray⟩ ∧ Fades candidates c.line := by
  cases keyAllowed with
  | false => exact ⟨[none], rfl, .inl rfl⟩
  | true =>
    refine ⟨_, rfl, .inr ⟨_, rfl, ?_, rfl⟩⟩
    simpa [facing, dropCandidate] using fun _ => noKey

/-! ## The next line -/

/-- In front of the next line, where no deeper blocks go on. -/
structure Rests (l : Lexer) (e : Cursor) (indent : Int) (outer : List Int) (ts : List Token) :
    Prop where
  ready : l.ready = some ((facing e indent outer true ts).unrollTo e.column)
  room : e.rest.length ≤ l.cursor.rest.length

theorem unrollTo_facing {column : Int} (h : indent ≤ column) :
    (facing e indent outer keyAllowed ts).unrollTo column =
      facing e indent outer keyAllowed ts := by
  rw [unrollTo, unroll.eq_def]
  simp [facing, h]

theorem push_facing (t : Token) :
    (facing c indent outer keyAllowed ts).push t =
      facing c indent outer keyAllowed (ts ++ [t]) := by
  simp [facing, push]

theorem unrollTo_facing_cons {o column : Int} {os : List Int} (h : column < indent) :
    (facing c indent (o :: os) keyAllowed ts).unrollTo column =
      (facing c o os keyAllowed (ts ++ [.blockEnd])).unrollTo column := by
  have deeper : ¬ indent ≤ column := Int.not_le.mpr h
  have closed : unroll column (o :: os) (facing c indent (o :: os) keyAllowed ts) =
      unroll column os
        { (facing c indent (o :: os) keyAllowed ts).push .blockEnd with
          indent := o, outer := os } := by
    rw [unroll.eq_def]
    simp [facing, inFlow, deeper]
  rw [push_facing] at closed
  exact closed

theorem Rests.closed {o : Int} {os : List Int} (h : Rests l e indent (o :: os) ts)
    (outside : e.column < indent) : Rests l e o os (ts ++ [.blockEnd]) := by
  exact ⟨h.ready.trans (congrArg some (unrollTo_facing_cons outside)), h.room⟩

theorem Rests.inside (h : Rests l e indent outer ts) (inside : indent ≤ e.column) :
    l.ready = some (facing e indent outer true ts) := by
  rw [h.ready, unrollTo_facing inside]

/-- The token in front of which the lexer rests. -/
theorem Rests.yields {a : Char} {r : List Char} (h : Rests l e indent outer ts)
    (inside : indent ≤ e.column) (rest : e.rest = a :: r)
    (token : (facing e indent outer true ts).token a = some l₂)
    (shorter : l₂.cursor.rest.length < e.rest.length) (later : Yields l₂ out) : Yields l out :=
  later.of_token (h.inside inside) rest token (shorter.trans_le h.room)

theorem dropStale_facing : (facing c indent outer keyAllowed ts).dropStale =
    some (facing c indent outer keyAllowed ts) := rfl

/-- Where only a space comes before the next token. -/
theorem ready_behind_space (h : e.Passes [' '] c) (begins : Begins c.rest)
    (inside : indent ≤ c.column) :
    (facing e indent outer keyAllowed ts).ready = some (facing c indent outer keyAllowed ts) := by
  have room : (facing e indent outer keyAllowed ts).cursor.rest.length + 1 =
      1 + (c.rest.length + 1) := by
    rw [cursor_facing, h.length_rest]
    rfl
  have passed : skipGap (1 + (c.rest.length + 1)) (facing e indent outer keyAllowed ts) =
      facing c indent outer keyAllowed ts :=
    (skipGap_spaces (n := 1) h).trans (skipGap_of_begins begins)
  rw [ready, room, passed, dropStale_facing, Option.map_some]
  exact congrArg some (unrollTo_facing inside)

/-- Behind a scalar that does not end its line. -/
theorem rests_of_line {line n : Nat} {candidates : List (Option Candidate)}
    (h : m.Passes ('\n' :: spaces n) e) (begins : Begins e.rest) (fades : Fades candidates line)
    (earlier : line ≤ m.line) :
    Rests ⟨m, indent, outer, keyAllowed, candidates, ts.toArray⟩ e indent outer ts := by
  have later : line < e.line := earlier.trans_lt (h.line_lt List.mem_cons_self (by decide))
  refine ⟨?_, h.length_rest ▸ Nat.le_add_left _ _⟩
  rw [ready, skipGap_line h begins, fades.inFlow, dropStale_of_fades fades later]
  simp [facing]

/-- Where a key may stand. -/
theorem rests_of_allowed (begins : Begins e.rest) :
    Rests (facing e indent outer true ts) e indent outer ts := by
  refine ⟨?_, le_rfl⟩
  rw [ready, skipGap_of_begins begins, dropStale_facing]
  rfl

/-- Behind a sign that ends its line. -/
theorem rests_facing {n : Nat} (h : m.Passes ('\n' :: spaces n) e) (begins : Begins e.rest) :
    Rests (facing m indent outer keyAllowed ts) e indent outer ts :=
  rests_of_line h begins (.inl rfl) le_rfl

/-- Behind a scalar that ends its line. -/
theorem rests_of_begins {candidates : List (Option Candidate)} {line : Nat} (begins : Begins e.rest)
    (fades : Fades candidates line) (later : line < e.line) :
    Rests ⟨e, indent, outer, true, candidates, ts.toArray⟩ e indent outer ts := by
  refine ⟨?_, le_rfl⟩
  rw [ready, skipGap_of_begins begins, dropStale_of_fades fades later]
  rfl

/-- At the end of the text the outermost block is closed. -/
theorem Rests.yields_end (h : Rests l e 0 [-1] ts) (rest : e.rest = []) :
    Yields l (ts ++ [.blockEnd]) := by
  have ends : ((facing e 0 [-1] true ts).unrollTo (-1)).dropCandidate =
      some (facing e (-1) [] true (ts ++ [.blockEnd])) := by
    rw [unrollTo_facing_cons (by decide), unrollTo_facing (Int.le_refl _)]
    rfl
  exact Yields.of_end (h.inside (Int.natCast_nonneg _)) rest ends

end Lexer

end Misuse.Yaml
