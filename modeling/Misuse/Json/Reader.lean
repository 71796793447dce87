import Misuse.Decimal
import Misuse.Json.Basic

/-!
# Reading JSON text

`Json.first?` reads one value and tells whether anything follows it; `Json.parse?` reads one
value and nothing after it. A text is first split into tokens (`lex`), then read by
nesting; `room` bounds how deep lists and records may nest. An integer literal outside the
64-bit ranges, and `-0`, is a number that is no integer; a literal whose product of digits
and power of ten is beyond the range of a double is no number at all. Main statement:
`first?_alone_iff`, a text is parsed exactly when its first value stands alone.
-/

namespace Misuse.Json

inductive Token where
  | openList
  | closeList
  | openRecord
  | closeRecord
  | comma
  | colon
  | scalar (value : Json)
  /-- The rest of a text from where no token begins. -/
  | junk
  deriving Repr

/-! ## Strings -/

def hexDigit? (c : Char) : Option Nat :=
  if c.isDigit then some (c.toNat - '0'.toNat)
  else if 'a' ≤ c ∧ c ≤ 'f' then some (c.toNat - 'a'.toNat + 10)
  else if 'A' ≤ c ∧ c ≤ 'F' then some (c.toNat - 'A'.toNat + 10)
  else none

/-- The code unit of four hexadecimal digits. -/
def unit? (a b c d : Char) : Option Nat := do
  let a ← hexDigit? a
  let b ← hexDigit? b
  let c ← hexDigit? c
  let d ← hexDigit? d
  some (((a * 16 + b) * 16 + c) * 16 + d)

def isHighSurrogate (n : Nat) : Bool := decide (0xD800 ≤ n) && decide (n ≤ 0xDBFF)
def isLowSurrogate (n : Nat) : Bool := decide (0xDC00 ≤ n) && decide (n ≤ 0xDFFF)

def simpleEscape? : Char → Option Char
  | '"' => some '"'
  | '\\' => some '\\'
  | '/' => some '/'
  | 'b' => some '\x08'
  | 'f' => some '\x0c'
  | 'n' => some '\n'
  | 'r' => some '\r'
  | 't' => some '\t'
  | _ => none

/-- The characters up to the closing quote, in reverse before `read`, and what follows it.
Surrogates are accepted in pairs only, control characters only escaped. -/
def string? (read : List Char) : List Char → Option (String × List Char)
  | [] => none
  | '"' :: r => some (String.ofList read.reverse, r)
  | '\\' :: 'u' :: a :: b :: c :: d :: '\\' :: 'u' :: e :: f :: g :: h :: r =>
    match unit? a b c d with
    | none => none
    | some high =>
      if isHighSurrogate high then
        match unit? e f g h with
        | none => none
        | some low =>
          if isLowSurrogate low then
            string? (Char.ofNat (0x10000 + (high - 0xD800) * 0x400 + (low - 0xDC00)) :: read) r
          else none
      else if isLowSurrogate high then none
      else string? (Char.ofNat high :: read) ('\\' :: 'u' :: e :: f :: g :: h :: r)
  | '\\' :: 'u' :: a :: b :: c :: d :: r =>
    match unit? a b c d with
    | none => none
    | some n =>
      if isHighSurrogate n || isLowSurrogate n then none
      else string? (Char.ofNat n :: read) r
  | '\\' :: c :: r =>
    match simpleEscape? c with
    | none => none
    | some e => string? (e :: read) r
  | c :: r => if c.toNat < 0x20 then none else string? (c :: read) r

/-! ## Numbers -/

/-- The digits after a decimal point, none if there is no point. -/
def fraction? : List Char → Option (List Char × List Char)
  | '.' :: r =>
    let (ds, rest) := r.span Char.isDigit
    if ds.isEmpty then none else some (ds, rest)
  | r => some ([], r)

def unsignedExponent? (r : List Char) : Option (Nat × List Char) :=
  let (ds, rest) := r.span Char.isDigit
  if ds.isEmpty then none
  else some (Integer.digitsValue ds, rest)

/-- The exponent after `e` or `E`, absent if there is none. -/
def exponent? : List Char → Option (Option Int × List Char)
  | e :: r =>
    if e == 'e' || e == 'E' then
      match r with
      | '-' :: r => (unsignedExponent? r).map fun (n, rest) => (some (-(n : Int)), rest)
      | '+' :: r => (unsignedExponent? r).map fun (n, rest) => (some (n : Int), rest)
      | r => (unsignedExponent? r).map fun (n, rest) => (some (n : Int), rest)
    else some (none, e :: r)
  | [] => some (none, [])

def unsigned? (negative : Bool) (s : List Char) : Option (Json × List Char) := do
  let (whole, r) := s.span Char.isDigit
  if whole.isEmpty || (whole.head? == some '0' && whole.length > 1) then none
  let (part, r) ← fraction? r
  let (power, r) ← exponent? r
  let spelling := String.ofList ((if negative then ['-'] else []) ++ s.take (s.length - r.length))
  if Decimal.productOverflows whole part (power.getD 0) then none
  else if !part.isEmpty || power.isSome then some (.decimal spelling, r)
  else
    let n := Integer.digitsValue whole
    if negative then
      some (if n = 0 ∨ -(n : Int) < Integer.least then .decimal spelling else .int (-(n : Int)), r)
    else some (if n ≤ Integer.greatestSize then .int n else .decimal spelling, r)

def number? : List Char → Option (Json × List Char)
  | '-' :: r => unsigned? true r
  | r => unsigned? false r

/-! ## Tokens -/

/-- The next token; blanks between tokens are `none`. -/
def token? : List Char → Option (Option Token × List Char)
  | [] => none
  | ' ' :: r | '\n' :: r | '\t' :: r | '\r' :: r => some (none, r)
  | '[' :: r => some (some .openList, r)
  | ']' :: r => some (some .closeList, r)
  | '\x7b' :: r => some (some .openRecord, r)
  | '\x7d' :: r => some (some .closeRecord, r)
  | ',' :: r => some (some .comma, r)
  | ':' :: r => some (some .colon, r)
  | '"' :: r => (string? [] r).map fun (s, rest) => (some (.scalar (.text s)), rest)
  | 't' :: 'r' :: 'u' :: 'e' :: r => some (some (.scalar (.bool true)), r)
  | 'f' :: 'a' :: 'l' :: 's' :: 'e' :: r => some (some (.scalar (.bool false)), r)
  | 'n' :: 'u' :: 'l' :: 'l' :: r => some (some (.scalar .null), r)
  | r => (number? r).map fun (n, rest) => (some (.scalar n), rest)

/-- All tokens; `read` holds those already read, in reverse. -/
def lexFrom : Nat → List Token → List Char → List Token
  | _, read, [] => read.reverse
  | 0, read, _ => (.junk :: read).reverse
  | fuel + 1, read, s =>
    match token? s with
    | none => (.junk :: read).reverse
    | some (none, r) => lexFrom fuel read r
    | some (some t, r) => lexFrom fuel (t :: read) r

/-- Every token takes a character, so the length of the text is fuel enough. -/
def lex (s : List Char) : List Token := lexFrom s.length [] s

/-! ## Values -/

mutual

def valueFrom? : Nat → Nat → List Token → Option (Json × List Token)
  | _ + 1, _, .scalar j :: r => some (j, r)
  | _ + 1, _ + 1, .openList :: .closeList :: r => some (.list [], r)
  | fuel + 1, room + 1, .openList :: r =>
    (itemsFrom? fuel room r).map fun (items, rest) => (.list items, rest)
  | _ + 1, _ + 1, .openRecord :: .closeRecord :: r => some (.record [], r)
  | fuel + 1, room + 1, .openRecord :: r =>
    (fieldsFrom? fuel room r).map fun (fields, rest) => (.record fields, rest)
  | _, _, _ => none

/-- The rest of a list, up to and with its closing bracket. -/
def itemsFrom? : Nat → Nat → List Token → Option (List Json × List Token)
  | 0, _, _ => none
  | fuel + 1, room, r =>
    match valueFrom? fuel room r with
    | some (j, .comma :: rest) =>
      (itemsFrom? fuel room rest).map fun (items, rest) => (j :: items, rest)
    | some (j, .closeList :: rest) => some ([j], rest)
    | _ => none

/-- The rest of a record, up to and with its closing brace. -/
def fieldsFrom? : Nat → Nat → List Token → Option (List (String × Json) × List Token)
  | fuel + 1, room, .scalar (.text name) :: .colon :: r =>
    match valueFrom? fuel room r with
    | some (j, .comma :: rest) =>
      (fieldsFrom? fuel room rest).map fun (fields, rest) => ((name, j) :: fields, rest)
    | some (j, .closeRecord :: rest) => some ([(name, j)], rest)
    | _ => none
  | _, _, _ => none

end

/-- The deepest nesting a document may have. -/
def documentRoom : Nat := 127

/-- The value a text begins with, and whether it stands alone. -/
def first? (room : Nat) (s : String) : Option (Json × Bool) :=
  let ts := lex s.toList
  (valueFrom? (ts.length + 1) room ts).map fun (j, rest) => (j, rest.isEmpty)

/-- The value a text is, all of it. -/
def parse? (room : Nat) (s : String) : Option Json :=
  match first? room s with
  | some (j, true) => some j
  | _ => none

/-! ## Laws -/

theorem first?_alone_iff (room : Nat) (s : String) (j : Json) :
    parse? room s = some j ↔ first? room s = some (j, true) := by
  unfold parse?
  split
  · rename_i k h
    simp [h]
  · rename_i h
    constructor
    · intro hn
      cases hn
    · intro hj
      exact absurd hj (h j)

end Misuse.Json
