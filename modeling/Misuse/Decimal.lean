import Misuse.Integer

/-!
# Decimal numbers

Digits and a power of ten. A number of any size can be spelled; two rules tell which ones
are too large for a double. `overflows` rounds the number itself. `productOverflows` rounds
what is read of the digits and the power of ten each for itself, and then their product.
-/

namespace Misuse.Decimal

/-- From here on a double rounds to infinity. -/
def infinityBound : Nat := Nat.pow 2 1024 - Nat.pow 2 970

/-- `digits · 10 ^ exponent` is at least the bound. No power is computed that the number of
digits decides. -/
def overflows (digits : List Char) (exponent : Int) : Bool :=
  let significant := digits.dropWhile (· == '0')
  let value := Integer.digitsValue significant
  let width := (significant.length : Int) + exponent
  if significant.isEmpty then false
  else if width > 309 then true
  else if width < 309 then false
  else if exponent ≥ 0 then decide (infinityBound ≤ value * Nat.pow 10 exponent.toNat)
  else decide (infinityBound * Nat.pow 10 (-exponent).toNat ≤ value)

/-! ## Products of doubles -/

/-- The nearest number with 53 binary digits, the even one of two. -/
def nearestDouble (n : Nat) : Nat :=
  let unit := Nat.pow 2 (n.log2 + 1 - 53)
  let q := n / unit
  let r := n % unit
  if 2 * r < unit ∨ (2 * r = unit ∧ q % 2 = 0) then q * unit else (q + 1) * unit

/-- The first digits as far as they are a number of 64 bits, in front of which `n` stands,
and the digits after them. -/
def leading (n : Nat) : List Char → Nat × List Char
  | [] => (n, [])
  | d :: ds =>
    let m := 10 * n + (d.toNat - '0'.toNat)
    if m ≤ Integer.greatestSize then leading m ds else (n, d :: ds)

/-- Of the digits, only the leading ones count. Digits of the whole that do not count make
the power greater, and those of the fraction that count make it less. -/
def productOverflows (whole fraction : List Char) (power : Int) : Bool :=
  let (n, dropped) := leading 0 whole
  let (n, ignored) := leading n fraction
  let exponent := power + dropped.length - ((fraction.length : Int) - ignored.length)
  if n = 0 ∨ exponent < 0 then false
  else if exponent > 308 then true
  else decide (infinityBound ≤ nearestDouble n * nearestDouble (Nat.pow 10 exponent.toNat))

end Misuse.Decimal
