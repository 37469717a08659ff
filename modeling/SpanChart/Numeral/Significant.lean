/-
  SIGNIFICANT — the leading decimal digits of a fraction, correctly rounded.

  A positive number `num / den` lies in one decade, `10 ^ e ≤ num / den < 10 ^ (e + 1)`, and on the
  grid of numbers with `places` digits in that decade there is a nearest one.  A number half way
  between two of them goes to the one whose last digit is even.  Rounding up may leave the decade,
  and then only upwards, by reaching the next power of ten.

  All of it is exact: no step looks at an approximation of the number.
-/
namespace SpanChart.Numeral

/-- The nearest natural number to `num / den`, the even one where two are equally near. -/
def nearest (num den : Nat) : Nat :=
  let rest := num % den
  if 2 * rest < den then num / den
  else if den < 2 * rest then num / den + 1
  else num / den + num / den % 2

/-- How many decimal digits a number is written with. -/
def digitCount (n : Nat) : Nat := (Nat.toDigits 10 n).length

/-- The decade of a positive number: the exponent of ten that its first digit counts.  Below one,
    the digits of `den / num` rounded up to an integer, less one, tell how far down it is. -/
def decade (num den : Nat) : Int :=
  if den ≤ num then (digitCount (num / den) : Int) - 1
  else -(digitCount ((den - 1) / num) : Int)

/-- A decimal number of fixed precision: `digits · 10 ^ (decade + 1 - places)`, where `digits` has
    `places` digits. -/
structure Significant where
  digits : Nat
  decade : Int
  deriving Repr, DecidableEq

/-- The nearest number with `places` significant digits, `places` being positive. -/
def significant (places num den : Nat) : Significant :=
  let e := decade num den
  let shift := (places : Int) - 1 - e
  let n := nearest (num * Nat.pow 10 shift.toNat) (den * Nat.pow 10 (-shift).toNat)
  if n < Nat.pow 10 places then ⟨n, e⟩ else ⟨n / 10, e + 1⟩

end SpanChart.Numeral
