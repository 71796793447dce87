import Misuse.Text.Basic

/-!
# Integers of 64 bits

Values, sizes and literals are integers between `least` and `greatest`. Arithmetic on
them is exact or refused: `add?`, `sub?` and `rem?` give the integer result exactly when
it lies in the range (`add?_eq_some_iff`, `sub?_eq_some_iff`), and never wrap.
-/

namespace Misuse.Integer

def least : Int := -9223372036854775808
def greatest : Int := 9223372036854775807

/-- The greatest size, which has no sign. -/
def greatestSize : Nat := 18446744073709551615

def fits (n : Int) : Bool := decide (least ≤ n) && decide (n ≤ greatest)

def checked (n : Int) : Option Int := if fits n then some n else none

def add? (a b : Int) : Option Int := checked (a + b)
def sub? (a b : Int) : Option Int := checked (a - b)

/-- The remainder takes the sign of `a`. A zero divisor has none, and neither has the
least integer against `-1`, whose quotient leaves the range. -/
def rem? (a b : Int) : Option Int :=
  if b = 0 ∨ (a = least ∧ b = -1) then none else checked (a.tmod b)

/-! ## Decimal text -/

def digitsValue (ds : List Char) : Nat :=
  ds.foldl (fun n d => 10 * n + (d.toNat - '0'.toNat)) 0

/-- One or more of the digits 0 to 9. -/
def natural? (ds : List Char) : Option Nat :=
  if ds.isEmpty || !ds.all Char.isDigit then none else some (digitsValue ds)

/-- An optional sign, then digits, in range. -/
def ofChars? : List Char → Option Int
  | '-' :: ds => (natural? ds).bind fun n => checked (-(n : Int))
  | '+' :: ds => (natural? ds).bind fun n => checked n
  | ds => (natural? ds).bind fun n => checked n

/-- The integer a text spells, blanks around it aside. -/
def ofText? (s : String) : Option Int := ofChars? (Text.trimChars s.toList)

/-! ## Laws -/

theorem checked_eq_some_iff (n m : Int) :
    checked n = some m ↔ n = m ∧ least ≤ n ∧ n ≤ greatest := by
  by_cases h : least ≤ n ∧ n ≤ greatest
  · simp [checked, fits, h]
  · have hf : fits n = false := by simpa [fits] using h
    simp [checked, hf, h]

theorem add?_eq_some_iff (a b m : Int) :
    add? a b = some m ↔ a + b = m ∧ least ≤ a + b ∧ a + b ≤ greatest :=
  checked_eq_some_iff _ _

theorem sub?_eq_some_iff (a b m : Int) :
    sub? a b = some m ↔ a - b = m ∧ least ≤ a - b ∧ a - b ≤ greatest :=
  checked_eq_some_iff _ _

end Misuse.Integer
