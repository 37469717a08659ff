/-
  BINARY — what number a `Float` stands for, as integers.

  Binary64 keeps a sign, an exponent field of eleven bits and a fraction of fifty-two.  Read off
  these, a finite number is `± mantissa · 2 ^ exponent` with a natural mantissa, and from there on
  everything that is printed about it is arithmetic on `Nat`.

  A NaN is kept without its sign and its fraction.  Which of the two signs the NaN of an operation
  has is left open by the standard and differs between machines (the difference of two infinities
  has the minus on some), and nothing else than a printed text could show it.
-/
namespace SpanChart.Numeral

/-- The number that a binary64 value stands for. -/
inductive Binary where
  /-- No number, of whichever sign. -/
  | nan
  | infinite (negative : Bool)
  /-- The number `± mantissa · 2 ^ exponent`.  Zero has a sign too. -/
  | finite (negative : Bool) (mantissa : Nat) (exponent : Int)
  deriving Repr, DecidableEq

namespace Binary

/-- One more than the largest fraction, and the leading bit that a normal number has besides. -/
def hiddenBit : Nat := 4503599627370496

/-- Reads the fields of a binary64 value: an exponent field of all ones is kept for infinities and
    NaNs, one of all zeros for the numbers too small to have a leading bit. -/
def ofBits (bits : UInt64) : Binary :=
  let negative := bits.toNat / hiddenBit / 2048 == 1
  let field := bits.toNat / hiddenBit % 2048
  let fraction := bits.toNat % hiddenBit
  if field = 2047 then
    if fraction = 0 then infinite negative else nan
  else if field = 0 then
    finite negative fraction (-1074)
  else
    finite negative (hiddenBit + fraction) ((field : Int) - 1075)

/-- The number that `x` stands for. -/
def ofFloat (x : Float) : Binary := ofBits x.toBits

end Binary

end SpanChart.Numeral
