/-
  GENERAL — numbers in general notation, the one that picks for itself between plain and
  scientific.

  A number is rounded to so many significant digits and loses the zeros at the end of its
  fraction.  From `10 ^ -4` up to where its integer part would need more digits than there are, it
  is written plainly; elsewhere it has one digit before the point and an exponent of at least two
  digits, with its sign.  What is infinite is `inf`, and every sign of a number is kept, also that
  of zero.  What is no number is `nan`, whatever its sign is; there are machines that write some of
  these as `-nan`.

  With seventeen digits no two numbers are written alike; six are for people.
-/
import SpanChart.Numeral.Binary
import SpanChart.Numeral.Significant

namespace SpanChart.Numeral

/-! ## Layout of the digits -/

/-- A list of digits without the zeros at its end. -/
def trimmed (digits : List Char) : List Char :=
  (digits.reverse.dropWhile (· == '0')).reverse

/-- A fraction after its point, or nothing where there is none. -/
def fractionPart : List Char → List Char
  | [] => []
  | digits => '.' :: digits

/-- The exponent of ten in scientific notation. -/
def exponentPart (e : Int) : List Char :=
  let digits := Nat.toDigits 10 e.natAbs
  'e' :: (if e < 0 then '-' else '+') :: (List.replicate (2 - digits.length) '0' ++ digits)

/-- One digit before the point, and an exponent. -/
def scientific (digits : List Char) (e : Int) : List Char :=
  digits.take 1 ++ fractionPart (trimmed (digits.drop 1)) ++ exponentPart e

/-- All the digits where they belong. -/
def plain (digits : List Char) (e : Int) : List Char :=
  if e < 0 then
    '0' :: '.' :: (List.replicate (e.natAbs - 1) '0' ++ trimmed digits)
  else
    digits.take (e.toNat + 1) ++ fractionPart (trimmed (digits.drop (e.toNat + 1)))

/-- A positive number in general notation, `places` being positive. -/
def generalPositive (places num den : Nat) : List Char :=
  let s := significant places num den
  let digits := Nat.toDigits 10 s.digits
  if s.decade < -4 ∨ (places : Int) ≤ s.decade then
    scientific digits s.decade
  else
    plain digits s.decade

/-! ## Numbers -/

/-- The sign that is written before a number. -/
def signPart (negative : Bool) : List Char := if negative then ['-'] else []

/-- The characters of a number in general notation. -/
def generalChars (places : Nat) : Binary → List Char
  | .nan => ['n', 'a', 'n']
  | .infinite negative => signPart negative ++ ['i', 'n', 'f']
  | .finite negative mantissa exponent =>
    signPart negative ++
      if mantissa = 0 then ['0']
      else
        generalPositive (max places 1)
          (mantissa * Nat.pow 2 exponent.toNat) (Nat.pow 2 (-exponent).toNat)

/-- A number in general notation with `places` significant digits.  None at all counts as one. -/
def general (places : Nat) (x : Float) : String :=
  String.ofList (generalChars places (Binary.ofFloat x))

/-- How many significant digits a number is written with where a person reads it. -/
def readable : Nat := 6

/-- How many significant digits tell any two binary64 numbers apart. -/
def faithful : Nat := 17

/-! ## What the notation looks like -/

example : general faithful 0.1 = "0.10000000000000001" := by decide +kernel
example : general faithful 1e17 = "1e+17" := by decide +kernel
example : general faithful (-0.0) = "-0" := by decide +kernel
example : general readable 0.0001 = "0.0001" := by decide +kernel
example : general readable 0.00001 = "1e-05" := by decide +kernel

/-- Rounding carries into the exponent, and the exponent is the one of the rounded number. -/
example : general readable 999999.5 = "1e+06" := by decide +kernel

/-- A tie goes to the even digit, downwards here. -/
example : general readable 1234565 = "1.23456e+06" := by decide +kernel

end SpanChart.Numeral
