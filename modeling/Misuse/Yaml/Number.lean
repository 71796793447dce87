import Misuse.Decimal

/-!
# Spelled numbers

How numbers are spelled in plain scalars. A size may have a plus sign, and `0x`, `0o` or
`0b` before digits of that base; a decimal one has no leading zeros. `spellsFloat` holds
for decimal fractions and powers of ten that a double can hold, and for the names of
infinity and of what is no number.
-/

namespace Misuse.Yaml.Number

/-! ## Digits -/

def digitValue (c : Char) : Nat :=
  if c.isDigit then c.toNat - '0'.toNat
  else if c.toLower.isLower then c.toLower.toNat - 'a'.toNat + 10
  else 36

/-- One or more digits of a base. -/
def natural? (base : Nat) (ds : List Char) : Option Nat :=
  if ds.isEmpty || !ds.all fun d => decide (digitValue d < base) then none
  else some (ds.foldl (fun n d => base * n + digitValue d) 0)

/-- Two or more decimal digits of which the first is 0. -/
def hasLeadingZero : List Char → Bool
  | '0' :: d :: ds => (d :: ds).all Char.isDigit
  | _ => false

/-- Digits of the base that is named in front, or else decimal ones. -/
def unsignedChars? : List Char → Option Nat
  | '0' :: 'x' :: ds => natural? 16 ds
  | '0' :: 'o' :: ds => natural? 8 ds
  | '0' :: 'b' :: ds => natural? 2 ds
  | ds => if hasLeadingZero ds then none else natural? 10 ds

def dropPlus : List Char → List Char
  | '+' :: s => s
  | s => s

/-- A size up to a limit. -/
def size? (limit : Nat) (s : String) : Option Nat :=
  match unsignedChars? (dropPlus s.toList) with
  | some n => if n ≤ limit then some n else none
  | none => none

/-! ## Numbers of any kind -/

/-- An integer of up to 128 bits. -/
def spellsInteger (s : String) : Bool :=
  match s.toList with
  | '-' :: ds =>
    match unsignedChars? ds with
    | some n => decide (n ≤ Nat.pow 2 127)
    | none => false
  | _ => (size? (Nat.pow 2 128 - 1) s).isSome

/-- A power of ten after its letter. -/
def exponent? : List Char → Option Int
  | '-' :: ds => (natural? 10 ds).map fun n => -(n : Int)
  | '+' :: ds => (natural? 10 ds).map Int.ofNat
  | ds => (natural? 10 ds).map Int.ofNat

/-- Digits with or without a point among them, then perhaps a power of ten. -/
def spellsDecimal (s : List Char) : Bool :=
  let (whole, rest) := s.span Char.isDigit
  let (fraction, rest) :=
    match rest with
    | '.' :: r => r.span Char.isDigit
    | r => ([], r)
  let power? :=
    match rest with
    | [] => some 0
    | c :: r => if c == 'e' || c == 'E' then exponent? r else none
  match power? with
  | some e =>
    let digits := whole ++ fraction
    !digits.isEmpty && !Decimal.overflows digits (e - fraction.length)
  | none => false

def infinities : List String := [".inf", ".Inf", ".INF"]
def noNumbers : List String := [".nan", ".NaN", ".NAN"]

def spellsFloat (s : String) : Bool :=
  match s.toList with
  | '+' :: r => infinities.contains (String.ofList r) || spellsDecimal r
  | '-' :: r => infinities.contains (String.ofList r) || spellsDecimal r
  | r => infinities.contains s || noNumbers.contains s || spellsDecimal r

/-- Decimal digits that only miss being a number by a leading zero. -/
def isPadded (s : String) : Bool :=
  match s.toList with
  | '+' :: ds => hasLeadingZero ds
  | '-' :: ds => hasLeadingZero ds
  | ds => hasLeadingZero ds

def spellsNumber (s : String) : Bool :=
  spellsInteger s || (!isPadded s && spellsFloat s)

end Misuse.Yaml.Number
