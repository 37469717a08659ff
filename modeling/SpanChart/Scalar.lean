/-
  SCALAR — the arithmetic that a chart is laid out in.

  A layout adds widths, subtracts times, takes the larger of two heights and halves what is left
  over.  It asks nothing else of its numbers, so it is written once over `Scalar α` and run at two
  of its instances:

  * `Float`  — binary64, what a trace is recorded in and what a drawing prints;
  * `Rat`    — the same layout without rounding, where the geometry is exact.

  No law is assumed of a scalar: `Float` has rounding, infinities and a NaN that is not even equal
  to itself, and every definition downstream says what it does with them by the order in which it
  applies these operations.
-/
namespace SpanChart

/-- The operations that laying out a chart takes: addition, subtraction, scaling, halving and a
    decidable order.  Halving stands on its own so that no numeral other than `0` and `1` is
    needed. -/
class Scalar (α : Type) extends Zero α, One α, Add α, Sub α, Mul α, Div α, LE α, LT α where
  /-- Half of a number, as division by two gives it. -/
  half : α → α
  /-- Whether one number is at most another. -/
  decLe : DecidableLE α
  /-- Whether one number is less than another. -/
  decLt : DecidableLT α

namespace Scalar

instance (priority := low) {α : Type} [Scalar α] : DecidableLE α := Scalar.decLe

instance (priority := low) {α : Type} [Scalar α] : DecidableLT α := Scalar.decLt

/-- The larger of two numbers.  The first one wins unless it is less than the second, which
    settles equal numbers of different sign and, where a NaN is involved, every comparison. -/
def larger {α : Type} [Scalar α] (a b : α) : α :=
  if a < b then b else a

theorem larger_of_lt {α : Type} [Scalar α] {a b : α} (h : a < b) : larger a b = b :=
  if_pos h

theorem larger_of_not_lt {α : Type} [Scalar α] {a b : α} (h : ¬a < b) : larger a b = a :=
  if_neg h

/-- Nothing else than one of the two is ever chosen. -/
theorem larger_eq_or {α : Type} [Scalar α] (a b : α) : larger a b = a ∨ larger a b = b := by
  by_cases h : a < b
  · exact Or.inr (larger_of_lt h)
  · exact Or.inl (larger_of_not_lt h)

end Scalar

/-! ## The two arithmetics -/

/-- Binary64: times as they are recorded, coordinates as they are printed. -/
instance : Scalar Float where
  zero := 0
  one := 1
  toAdd := instAddFloat
  toSub := instSubFloat
  toMul := instMulFloat
  toDiv := instDivFloat
  toLE := instLEFloat
  toLT := instLTFloat
  half x := x / 2
  decLe := Float.decLe
  decLt := Float.decLt

/-- Exact arithmetic: the same layout, with nothing lost to rounding. -/
instance : Scalar Rat where
  zero := 0
  one := 1
  toAdd := Rat.instAdd
  toSub := Rat.instSub
  toMul := Rat.instMul
  toDiv := Rat.instDiv
  toLE := Rat.instLE
  toLT := Rat.instLT
  half x := x / 2
  decLe := Rat.instDecidableLe
  decLt := Rat.instDecidableLt

end SpanChart
