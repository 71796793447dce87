import Mathlib.Data.List.TakeDrop
import Mathlib.Data.List.TakeWhile
import Misuse.Json.Printer
import Misuse.Proofs.Tokens

/-!
# Printed trees are read back

`pretty` spells a tree so that the text splits into the tokens of the tree
(`lexes_prettyAt`). So the text is read back as that tree if it fits into the room, and not at all
if it does not (`first?_pretty`). The numbers of the tree have to be integers of 64 bits.
-/

namespace Misuse

/-! ## Decimal digits -/

namespace Integer

theorem digitsValue_toDigits (n : Nat) : digitsValue (Nat.toDigits 10 n) = n :=
  Nat.ofDigitChars_ten_toDigits

/-- The decimal digits of a positive number do not begin with 0. -/
theorem head?_toDigits_ne {n : Nat} (positive : 0 < n) :
    (Nat.toDigits 10 n).head? ≠ some '0' := by
  induction n using Nat.strongRecOn with
  | ind n ih =>
    rw [Nat.toDigits_eq_if (by decide)]
    split
    · rename_i small
      have digit : ∀ n < 10, 0 < n → Nat.digitChar n ≠ '0' := by decide
      simpa using digit n small positive
    · rw [List.head?_append, Option.or_of_isSome]
      · exact ih (n / 10) (by omega) (by omega)
      · exact List.isSome_head?.mpr Nat.toDigits_ne_nil

end Integer

namespace Decimal

/-- All digits of a number of 64 bits are leading ones. -/
theorem leading_eq (n : Nat) (ds : List Char)
    (h : Nat.ofDigitChars 10 ds n ≤ Integer.greatestSize) :
    leading n ds = (Nat.ofDigitChars 10 ds n, []) := by
  induction ds generalizing n with
  | nil => rfl
  | cons d ds ih =>
    rw [Nat.ofDigitChars_cons] at h ⊢
    have ahead : 10 * n + (d.toNat - '0'.toNat) ≤
        Nat.ofDigitChars 10 ds (10 * n + (d.toNat - '0'.toNat)) := by
      rw [Nat.ofDigitChars_eq_ofDigitChars_zero]
      exact Nat.le_add_right_of_le (Nat.le_mul_of_pos_left _ (Nat.pow_pos (by decide)))
    simp only [leading, if_pos (ahead.trans h), ih _ h]

theorem nearestDouble_le (n : Nat) (positive : 0 < n) : nearestDouble n ≤ 2 * n := by
  have unit : Nat.pow 2 (n.log2 + 1 - 53) ≤ n :=
    (Nat.pow_le_pow_right (by decide) (by omega)).trans (Nat.log2_self_le positive.ne')
  have quotient := Nat.div_mul_le_self n (Nat.pow 2 (n.log2 + 1 - 53))
  unfold nearestDouble
  simp only
  split
  · omega
  · rw [Nat.add_mul]
    omega

theorem productOverflows_toDigits {n : Nat} (h : n ≤ Integer.greatestSize) :
    productOverflows (Nat.toDigits 10 n) [] 0 = false := by
  have lead : leading 0 (Nat.toDigits 10 n) = (n, []) := by
    have value : Nat.ofDigitChars 10 (Nat.toDigits 10 n) 0 = n := Nat.ofDigitChars_ten_toDigits
    rw [leading_eq 0 _ (value.symm ▸ h), value]
  simp only [productOverflows, lead, leading]
  rcases Nat.eq_zero_or_pos n with rfl | positive
  · rfl
  · have small : nearestDouble n * nearestDouble (Nat.pow 10 0) < infinityBound := by
      have bound : 2 * Integer.greatestSize * nearestDouble (Nat.pow 10 0) < infinityBound := by
        decide +kernel
      refine Nat.lt_of_le_of_lt (Nat.mul_le_mul_right _ ?_) bound
      exact (nearestDouble_le n positive).trans (Nat.mul_le_mul_left 2 h)
    simpa [positive.ne'] using small

end Decimal

namespace Json

/-! ## Splitting a text -/

/-- From `s` the tokens `ts` are read up to `rest`, and the fuel left is enough for `rest`. -/
def Lexes (s : List Char) (ts : List Token) (rest : List Char) : Prop :=
  ∀ fuel read, s.length ≤ fuel →
    ∃ fuel', rest.length ≤ fuel' ∧ lexFrom fuel read s = lexFrom fuel' (ts.reverse ++ read) rest

namespace Lexes

variable {s r rest : List Char} {ts us : List Token}

theorem refl (s : List Char) : Lexes s [] s := fun fuel _ enough => ⟨fuel, enough, rfl⟩

theorem trans (h : Lexes s ts r) (h' : Lexes r us rest) : Lexes s (ts ++ us) rest := by
  intro fuel read enough
  obtain ⟨fuel', enough', same⟩ := h fuel read enough
  obtain ⟨fuel'', enough'', same'⟩ := h' fuel' (ts.reverse ++ read) enough'
  refine ⟨fuel'', enough'', ?_⟩
  rw [same, same', List.reverse_append, List.append_assoc]

/-- One token, or a blank. -/
theorem step {found : Option Token} (h : token? s = some (found, rest))
    (shorter : rest.length < s.length) : Lexes s found.toList rest := by
  intro fuel read enough
  match fuel, s with
  | 0, c :: s => simp at enough
  | fuel + 1, c :: s =>
    simp only [List.length_cons] at shorter enough
    refine ⟨fuel, by omega, ?_⟩
    cases found <;> simp [lexFrom, h]

/-- A token of several characters. -/
theorem scalar {t : Token} (h : token? s = some (some t, rest)) (shorter : rest.length < s.length) :
    Lexes s [t] rest :=
  step h shorter

/-- A token of one character. -/
theorem token {c : Char} {t : Token} (h : Lexes s ts rest)
    (one : token? (c :: s) = some (some t, s)) : Lexes (c :: s) (t :: ts) rest :=
  (step one (Nat.lt_succ_self _)).trans h

theorem blank {c : Char} (h : Lexes s ts rest) (one : token? (c :: s) = some (none, s)) :
    Lexes (c :: s) ts rest :=
  (step one (Nat.lt_succ_self _)).trans h

theorem lex_eq (h : Lexes s ts []) : lex s = ts := by
  obtain ⟨fuel, -, same⟩ := h s.length [] (Nat.le_refl _)
  have done : lexFrom fuel (ts.reverse ++ []) [] = (ts.reverse ++ []).reverse := by
    cases fuel <;> rfl
  rw [lex, same, done, List.append_nil, List.reverse_reverse]

end Lexes

theorem lexes_margin {s rest : List Char} {ts : List Token} (level : Nat) (h : Lexes s ts rest) :
    Lexes ((margin level).toList ++ s) ts rest := by
  rw [margin, String.toList_ofList]
  induction 2 * level with
  | zero => exact h
  | succ n ih => exact ih.blank rfl

/-! ## Strings -/

theorem string?_unit {a b c d : Char} {n : Nat} (unit : unit? a b c d = some n) (low : n < 0xD800)
    (read r : List Char) :
    string? read ('\\' :: 'u' :: a :: b :: c :: d :: r) = string? (Char.ofNat n :: read) r := by
  have high : isHighSurrogate n = false := by simp [isHighSurrogate]; omega
  have low : isLowSurrogate n = false := by simp [isLowSurrogate]; omega
  rw [string?.eq_def]
  split
  case h_3 same => cases same; simp [unit, high, low]
  case h_4 same => cases same; simp [unit, high, low]
  case h_5 no_unit same => cases same; exact absurd rfl (no_unit a b c d r rfl)
  case h_6 no_escape same => cases same; exact absurd rfl (no_escape 'u' _ rfl)
  all_goals cases ‹_ = _›

theorem unit?_hexChar : ∀ n < 0x20,
    unit? '0' '0' (hexChar (n / 16)) (hexChar (n % 16)) = some n := by
  decide

theorem string?_escapeChar (c : Char) (read rest : List Char) :
    string? read (escapeChar c ++ rest) = string? (c :: read) rest := by
  unfold escapeChar
  repeat' split
  iterate 7 case isTrue h => subst h; rfl
  case isTrue control =>
    refine (string?_unit (unit?_hexChar c.toNat control) (by omega) read rest).trans ?_
    rw [Char.ofNat_toNat]
  case isFalse no_quote no_backslash _ _ _ _ _ printable =>
    rw [List.singleton_append, string?.eq_def]
    split
    case h_6 same =>
      cases same
      exact if_neg printable
    all_goals cases ‹_ = _›
    all_goals first | exact absurd rfl no_quote | exact absurd rfl no_backslash

theorem string?_escaped (cs read rest : List Char) :
    string? read (cs.flatMap escapeChar ++ '"' :: rest) =
      some (String.ofList (read.reverse ++ cs), rest) := by
  induction cs generalizing read with
  | nil => simp [string?]
  | cons c cs ih => simp [string?_escapeChar, ih]

theorem lexes_quoted (s : String) (rest : List Char) :
    Lexes ((quoted s).toList ++ rest) [.scalar (.text s)] rest := by
  have read := string?_escaped s.toList [] rest
  rw [List.reverse_nil, List.nil_append, String.ofList_toList] at read
  have chars : (quoted s).toList ++ rest = '"' :: (s.toList.flatMap escapeChar ++ '"' :: rest) := by
    simp [quoted]
  rw [chars]
  refine Lexes.scalar ?_ ?_
  · simp [token?, read]
  · simp only [List.length_cons, List.length_append]
    omega

/-! ## Integers -/

/-- Nothing, a comma or a line end: a number before it ends there. -/
def Ended (rest : List Char) : Prop := ∀ c ∈ rest.head?, c = ',' ∨ c = '\n'

theorem span_digits {ds rest : List Char} (digits : ∀ d ∈ ds, d.isDigit = true)
    (ended : Ended rest) : (ds ++ rest).span Char.isDigit = (ds, rest) := by
  rw [List.span_eq_takeWhile_dropWhile, List.takeWhile_append_of_pos digits,
    List.dropWhile_append_of_pos digits]
  cases rest with
  | nil => simp
  | cons c rest => obtain rfl | rfl := ended c rfl <;> simp

theorem unsigned?_toDigits {n : Nat} (h : n ≤ Integer.greatestSize) (negative : Bool)
    (signed : negative = true → 0 < n ∧ Integer.least ≤ -(n : Int)) {rest : List Char}
    (ended : Ended rest) :
    unsigned? negative (Nat.toDigits 10 n ++ rest) =
      some (.int (if negative then -(n : Int) else n), rest) := by
  have digits : ∀ d ∈ Nat.toDigits 10 n, d.isDigit = true := fun _ =>
    Nat.isDigit_of_mem_toDigits (by decide) (by decide)
  have span := span_digits digits ended
  have nonempty : (Nat.toDigits 10 n).isEmpty = false :=
    List.isEmpty_eq_false_iff.mpr Nat.toDigits_ne_nil
  have leadingZero : ((Nat.toDigits 10 n).head? == some '0' &&
      decide (1 < (Nat.toDigits 10 n).length)) = false := by
    rcases Nat.eq_zero_or_pos n with rfl | positive
    · rfl
    · simp [Integer.head?_toDigits_ne positive]
  have fraction : fraction? rest = some ([], rest) := by
    cases rest with
    | nil => rfl
    | cons c rest => obtain rfl | rfl := ended c rfl <;> rfl
  have exponent : exponent? rest = some (none, rest) := by
    cases rest with
    | nil => rfl
    | cons c rest => obtain rfl | rfl := ended c rfl <;> rfl
  simp only [unsigned?, span, nonempty, gt_iff_lt, leadingZero, Bool.or_self, Bool.false_eq_true,
    ↓reduceIte, fraction, exponent, Option.bind_eq_bind, Option.bind_some, Option.getD_none,
    Decimal.productOverflows_toDigits h, List.isEmpty_nil, Bool.not_true, Option.isSome_none,
    Integer.digitsValue_toDigits, h]
  cases negative with
  | false => rfl
  | true =>
    obtain ⟨positive, least⟩ := signed rfl
    simp [positive.ne', Int.not_lt.mpr least]

theorem number?_of_isDigit {c : Char} (digit : c.isDigit = true) (r : List Char) :
    number? (c :: r) = unsigned? false (c :: r) := by
  unfold number?
  split
  · rename_i same
    cases same
    exact absurd digit (by decide)
  · rfl

theorem token?_of_number {c : Char} (number : c.isDigit = true ∨ c = '-') (r : List Char) :
    token? (c :: r) = (number? (c :: r)).map fun (n, rest) => (some (.scalar n), rest) := by
  unfold token?
  split
  case h_16 => rfl
  all_goals cases ‹_ = _›
  all_goals exact absurd number (by decide)

/-- An integer within the ranges of 64 bits is one token, up to where it ends. -/
theorem token?_int {n : Int} (least : Integer.least ≤ n) (greatest : n ≤ Integer.greatestSize)
    {rest : List Char} (ended : Ended rest) :
    token? ((toString n).toList ++ rest) = some (some (.scalar (.int n)), rest) := by
  rw [Int.toString_eq_repr, Int.repr_eq_if]
  split
  · rename_i nonneg
    obtain ⟨n, rfl⟩ := Int.eq_ofNat_of_zero_le nonneg
    have read := unsigned?_toDigits (Int.ofNat_le.mp greatest) false nofun ended
    have digits (c : Char) : c ∈ Nat.toDigits 10 n → c.isDigit = true :=
      Nat.isDigit_of_mem_toDigits (by decide) (by decide)
    obtain ⟨c, cs, first⟩ := List.exists_cons_of_ne_nil (Nat.toDigits_ne_nil (n := n) (b := 10))
    have digit : c.isDigit = true := digits c (first ▸ List.mem_cons_self ..)
    rw [Int.toNat_natCast, Nat.toList_repr]
    rw [first, List.cons_append] at read ⊢
    rw [token?_of_number (.inl digit), number?_of_isDigit digit, read]
    rfl
  · rename_i negative
    obtain ⟨n, rfl⟩ : ∃ m : Nat, n = -(m : Int) := ⟨n.natAbs, by omega⟩
    have small : n ≤ Integer.greatestSize := by
      simp only [Integer.least, Integer.greatestSize] at least ⊢
      omega
    have read := unsigned?_toDigits small true (fun _ => ⟨by omega, least⟩) ended
    have chars : ("-" ++ (-(-(n : Int))).toNat.repr).toList ++ rest =
        '-' :: (Nat.toDigits 10 n ++ rest) := by
      simp
    rw [chars, token?_of_number (.inr rfl), number?, read]
    rfl

/-! ## Trees -/

/-- Every number is an integer in the ranges of 64 bits. -/
inductive Plain : Json → Prop
  | null : Plain .null
  | bool (b : Bool) : Plain (.bool b)
  | int {n : Int} (least : Integer.least ≤ n) (greatest : n ≤ Integer.greatestSize) : Plain (.int n)
  | text (s : String) : Plain (.text s)
  | list {items : List Json} (plain : ∀ j ∈ items, Plain j) : Plain (.list items)
  | record {fields : List (String × Json)} (plain : ∀ f ∈ fields, Plain f.2) :
    Plain (.record fields)

theorem ended_comma (rest : List Char) : Ended (',' :: rest) := by simp [Ended]

theorem ended_newline (rest : List Char) : Ended ('\n' :: rest) := by simp [Ended]

theorem length_toString_int_pos (n : Int) : 0 < (toString n).toList.length := by
  rw [Int.toString_eq_repr, Int.repr_eq_if]
  split
  · rw [Nat.toList_repr]
    exact Nat.length_toDigits_pos
  · simp

theorem lexes_scalarText {j : Json} (plain : j.Plain) (scalar : j.depth = 0) {rest : List Char}
    (ended : Ended rest) : Lexes ((scalarText j).toList ++ rest) [.scalar j] rest := by
  have longer {s : String} (nonempty : 0 < s.toList.length) :
      rest.length < (s.toList ++ rest).length := by
    rw [List.length_append]
    omega
  cases plain with
  | null => exact Lexes.scalar rfl (longer (by decide))
  | bool b => cases b <;> exact Lexes.scalar rfl (longer (by decide))
  | int least greatest =>
    exact Lexes.scalar (token?_int least greatest ended)
      (longer (length_toString_int_pos _))
  | text s => exact lexes_quoted s rest
  | list | record => simp [depth] at scalar

mutual

/-- The text of a tree splits into its tokens. -/
theorem lexes_prettyAt {j : Json} (plain : j.Plain) (level : Nat) {rest : List Char}
    (ended : Ended rest) : Lexes ((prettyAt level j).toList ++ rest) j.tokens rest := by
  match j with
  | .list [] =>
    have closed : Lexes (']' :: rest) [.closeList] rest := (Lexes.refl rest).token rfl
    have opened : Lexes ('[' :: ']' :: rest) [.openList, .closeList] rest := closed.token rfl
    simpa [prettyAt, tokens, itemTokens] using opened
  | .list (j :: js) =>
    cases plain with
    | list plain =>
      have closed : Lexes ('\n' :: ((margin level).toList ++ ']' :: rest)) [.closeList] rest :=
        (lexes_margin level ((Lexes.refl rest).token rfl)).blank rfl
      have items := (lexes_prettyItems plain (level + 1) _).trans closed
      have opened : Lexes ('[' :: '\n' :: _) _ rest := (items.blank rfl).token rfl
      simpa [prettyAt, tokens] using opened
  | .record [] =>
    have closed : Lexes ('\x7d' :: rest) [.closeRecord] rest := (Lexes.refl rest).token rfl
    have opened : Lexes ('\x7b' :: '\x7d' :: rest) [.openRecord, .closeRecord] rest :=
      closed.token rfl
    simpa [prettyAt, tokens, fieldTokens] using opened
  | .record (f :: fs) =>
    cases plain with
    | record plain =>
      have closed : Lexes ('\n' :: ((margin level).toList ++ '\x7d' :: rest)) [.closeRecord] rest :=
        (lexes_margin level ((Lexes.refl rest).token rfl)).blank rfl
      have fields := (lexes_prettyFields plain (level + 1) _).trans closed
      have opened : Lexes ('\x7b' :: '\n' :: _) _ rest := (fields.blank rfl).token rfl
      simpa [prettyAt, tokens] using opened
  | .null | .bool _ | .int _ | .decimal _ | .text _ => exact lexes_scalarText plain rfl ended

theorem lexes_prettyItems {items : List Json} (plain : ∀ j ∈ items, j.Plain) (level : Nat)
    (rest : List Char) :
    Lexes ((prettyItems level items).toList ++ '\n' :: rest) (itemTokens items) ('\n' :: rest) := by
  match items with
  | [] => exact .refl _
  | [j] =>
    have item := lexes_prettyAt (plain j (List.mem_cons_self ..)) level (ended_newline rest)
    simpa [prettyItems, itemTokens] using lexes_margin level item
  | j :: k :: js =>
    obtain ⟨plainItem, plain⟩ := List.forall_mem_cons.mp plain
    have more : Lexes (',' :: '\n' :: _) _ _ :=
      ((lexes_prettyItems plain level rest).blank rfl).token rfl
    have item := (lexes_prettyAt plainItem level (ended_comma _)).trans more
    simpa [prettyItems, itemTokens] using lexes_margin level item

theorem lexes_prettyFields {fields : List (String × Json)} (plain : ∀ f ∈ fields, f.2.Plain)
    (level : Nat) (rest : List Char) :
    Lexes ((prettyFields level fields).toList ++ '\n' :: rest) (fieldTokens fields)
      ('\n' :: rest) := by
  match fields with
  | [] => exact .refl _
  | [(name, j)] =>
    have plainValue := plain (name, j) (List.mem_cons_self ..)
    have value := lexes_prettyAt plainValue level (ended_newline rest)
    have colon : Lexes (':' :: ' ' :: _) _ _ := (value.blank rfl).token rfl
    have field := (lexes_quoted name _).trans colon
    simpa [prettyFields, fieldTokens] using lexes_margin level field
  | (name, j) :: f :: fs =>
    obtain ⟨plainValue, plain⟩ := List.forall_mem_cons.mp plain
    have more : Lexes (',' :: '\n' :: _) _ _ :=
      ((lexes_prettyFields plain level rest).blank rfl).token rfl
    have value := (lexes_prettyAt plainValue level (ended_comma _)).trans more
    have colon : Lexes (':' :: ' ' :: _) _ _ := (value.blank rfl).token rfl
    have field := (lexes_quoted name _).trans colon
    simpa [prettyFields, fieldTokens] using lexes_margin level field

end

theorem lex_pretty {j : Json} (plain : j.Plain) : lex j.pretty.toList = j.tokens := by
  have ended : Ended [] := by simp [Ended]
  have lexes := lexes_prettyAt plain 0 ended
  rw [List.append_nil] at lexes
  exact lexes.lex_eq

theorem parse?_pretty {j : Json} (plain : j.Plain) {room : Nat} (fits : j.depth ≤ room) :
    parse? room j.pretty = some j :=
  parse?_eq_some_iff.mpr ⟨lex_pretty plain, fits⟩

/-- **A printed tree is read back if it fits into the room**, and else the text is refused. -/
theorem first?_pretty {j : Json} (plain : j.Plain) (room : Nat) :
    first? room j.pretty = if j.depth ≤ room then some (j, true) else none :=
  first?_of_parse? (parse?_pretty plain (Nat.le_refl _)) room

end Json

end Misuse
