/-
  NUMBERS — which scalars can be compared, and how.

  Nothing is assumed of the arithmetic of a scalar, and of its order only what both arithmetics
  give: some values are numbers, these are comparable with each other, and what is no number is
  comparable with nothing.  A number is recognised by being at most itself (`IsNumber`), which in
  binary64 is everything but the NaN (`isNumber_float`), the infinities included, and over the
  rationals everything.

  With that the two places where times are compared can be decided.  The larger of two values is no
  less than the first if the first is a number, whatever the second may be (`le_larger_iff`): this
  is what makes idle time sound.  And a span that does not end before it starts may still not end
  after it, but only for want of numbers (`le_iff_of_not_lt`).

  Where times are compared in a row the order has to be transitive as well (`Linear`).  In binary64
  it is, because numbers compare as they rank (`le_iff_rank`), and ranks are ordered linearly.
-/
import Mathlib
import SpanChart.Scalar

namespace SpanChart.Scalar

/-! ## Scalars that are numbers -/

/-- A value that can be compared at all. -/
def IsNumber {α : Type} [Scalar α] (a : α) : Prop := a ≤ a

/-- A scalar whose order is total among numbers and empty elsewhere. -/
class Ordered (α : Type) [Scalar α] : Prop where
  isNumber_of_le {a b : α} : a ≤ b → IsNumber a ∧ IsNumber b
  le_of_lt {a b : α} : a < b → a ≤ b
  not_lt_of_le {a b : α} : a ≤ b → ¬b < a
  le_of_not_lt {a b : α} : IsNumber a → IsNumber b → ¬b < a → a ≤ b

/-- An ordered scalar whose order is transitive as well, and so linear among numbers. -/
class Linear (α : Type) [Scalar α] : Prop extends Ordered α where
  le_trans {a b c : α} : a ≤ b → b ≤ c → a ≤ c

section

variable {α : Type} [Scalar α] [Ordered α]

/-- Numbers that are not the wrong way round are the right way round. -/
theorem le_iff_of_not_lt {a b : α} (h : ¬b < a) : a ≤ b ↔ IsNumber a ∧ IsNumber b :=
  ⟨Ordered.isNumber_of_le, fun hab => Ordered.le_of_not_lt hab.1 hab.2 h⟩

/-- The larger of two values is no less than the first, provided only that the first is a
    number. -/
theorem le_larger_iff {a b : α} : a ≤ larger a b ↔ IsNumber a := by
  refine ⟨fun h => (Ordered.isNumber_of_le h).1, fun ha => ?_⟩
  by_cases h : a < b
  · rw [larger_of_lt h]
    exact Ordered.le_of_lt h
  · rw [larger_of_not_lt h]
    exact ha

end

/-- Nothing that both values are at most is less than the larger of them. -/
theorem larger_le {α : Type} [Scalar α] {a b c : α} (ha : a ≤ c) (hb : b ≤ c) :
    larger a b ≤ c := by
  rcases larger_eq_or a b with h | h
  · rwa [h]
  · rwa [h]

instance {α : Type} [Scalar α] [Linear α] : IsTrans α (· ≤ ·) :=
  ⟨fun _ _ _ => Linear.le_trans⟩

/-! ## The rationals -/

theorem isNumber_rat (a : Rat) : IsNumber a := le_refl a

instance : Ordered Rat where
  isNumber_of_le _ := ⟨isNumber_rat _, isNumber_rat _⟩
  le_of_lt h := le_of_lt h
  not_lt_of_le h := not_lt.2 h
  le_of_not_lt _ _ h := not_lt.1 h

instance : Linear Rat where
  le_trans hab hbc := Rat.le_trans hab hbc

/-! ## Binary64 -/

section Binary64

open Float.Model

/-- How two binary64 values compare, if they do. -/
def compare? (a b : Float) : Option Ordering := a.toModel.unpack.compare b.toModel.unpack

/-- Comparing the other way round gives the other answer. -/
theorem unpacked_compare_swap (a b : UnpackedFloat) :
    b.compare a = (a.compare b).map Ordering.swap := by
  cases a with
  | notANumber => cases b <;> rfl
  | infinity s =>
    cases b with
    | infinity t => cases s <;> cases t <;> rfl
    | _ => cases s <;> rfl
  | zero s =>
    cases b with
    | infinity t => cases t <;> rfl
    | finite t m e h => cases t <;> rfl
    | _ => rfl
  | finite s m e h =>
    cases b with
    | infinity t => cases s <;> cases t <;> rfl
    | zero t => cases s <;> rfl
    | notANumber => cases s <;> rfl
    | finite t n f k =>
      -- by exponent, and then by mantissa
      have hm : compare n m = (compare m n).swap := Std.OrientedCmp.eq_swap
      have he : compare f e = (compare e f).swap := Std.OrientedCmp.eq_swap
      cases s <;> cases t <;> simp [UnpackedFloat.compare, hm, he, Ordering.swap_then]

/-- Only a NaN does not compare. -/
theorem unpacked_compare_eq_none_iff (a b : UnpackedFloat) :
    a.compare b = none ↔ a.isNaN = true ∨ b.isNaN = true := by
  cases a with
  | notANumber => cases b <;> simp [UnpackedFloat.compare, UnpackedFloat.isNaN]
  | infinity s =>
    cases b <;> cases s <;> simp [UnpackedFloat.compare, UnpackedFloat.isNaN]
  | zero s =>
    cases b with
    | infinity t => cases t <;> simp [UnpackedFloat.compare, UnpackedFloat.isNaN]
    | finite t m e h => cases t <;> simp [UnpackedFloat.compare, UnpackedFloat.isNaN]
    | _ => simp [UnpackedFloat.compare, UnpackedFloat.isNaN]
  | finite s m e h =>
    cases b with
    | infinity t => cases s <;> cases t <;> simp [UnpackedFloat.compare, UnpackedFloat.isNaN]
    | finite t n f k => cases s <;> cases t <;> simp [UnpackedFloat.compare, UnpackedFloat.isNaN]
    | _ => cases s <;> simp [UnpackedFloat.compare, UnpackedFloat.isNaN]

theorem compare?_swap (a b : Float) : compare? b a = (compare? a b).map Ordering.swap :=
  unpacked_compare_swap _ _

theorem compare?_eq_none_iff {a b : Float} :
    compare? a b = none ↔ a.isNaN = true ∨ b.isNaN = true :=
  unpacked_compare_eq_none_iff _ _

theorem lt_iff_compare? {a b : Float} : a < b ↔ compare? a b = some .lt := by
  show Float.lt a b = true ↔ _
  unfold Float.lt
  rw [decide_eq_true_iff]
  show UnpackedFloat.lt _ _ = true ↔ _
  unfold UnpackedFloat.lt
  exact beq_iff_eq

theorem le_iff_compare? {a b : Float} :
    a ≤ b ↔ compare? a b = some .lt ∨ compare? a b = some .eq := by
  show Float.le a b = true ↔ _
  unfold Float.le
  rw [decide_eq_true_iff]
  show UnpackedFloat.le _ _ = true ↔ _
  unfold UnpackedFloat.le compare?
  cases a.toModel.unpack.compare b.toModel.unpack with
  | none => simp
  | some o => cases o <;> simp

/-- A number compares equal to itself. -/
theorem compare?_self {a : Float} (h : a.isNaN = false) : compare? a a = some .eq := by
  cases hc : compare? a a with
  | none =>
    rcases compare?_eq_none_iff.1 hc with hnan | hnan
    · exact absurd (h.symm.trans hnan) Bool.false_ne_true
    · exact absurd (h.symm.trans hnan) Bool.false_ne_true
  | some o =>
    have hswap := compare?_swap a a
    rw [hc] at hswap
    cases o <;> simp at hswap ⊢

/-- In binary64 everything but the NaN is a number. -/
theorem isNumber_float {a : Float} : IsNumber a ↔ a.isNaN = false := by
  show a ≤ a ↔ _
  rw [le_iff_compare?]
  constructor
  · intro h
    by_contra hnan
    have hnone := compare?_eq_none_iff (b := a).2 (Or.inl (Bool.eq_true_of_not_eq_false hnan))
    rw [hnone] at h
    simp at h
  · exact fun h => Or.inr (compare?_self h)

instance : Ordered Float where
  isNumber_of_le {a b} h := by
    have hsome : ¬(a.isNaN = true ∨ b.isNaN = true) := by
      rw [← compare?_eq_none_iff]
      rcases le_iff_compare?.1 h with h | h <;> simp [h]
    rw [not_or, Bool.not_eq_true, Bool.not_eq_true] at hsome
    rwa [isNumber_float, isNumber_float]
  le_of_lt h := le_iff_compare?.2 (Or.inl (lt_iff_compare?.1 h))
  not_lt_of_le {a b} h hlt := by
    rw [lt_iff_compare?, compare?_swap] at hlt
    rcases le_iff_compare?.1 h with h | h <;> simp [h] at hlt
  le_of_not_lt {a b} ha hb h := by
    rw [isNumber_float] at ha hb
    rw [lt_iff_compare?, compare?_swap] at h
    rw [le_iff_compare?]
    cases hc : compare? a b with
    | none =>
      rcases compare?_eq_none_iff.1 hc with hnan | hnan
      · exact absurd (ha.symm.trans hnan) Bool.false_ne_true
      · exact absurd (hb.symm.trans hnan) Bool.false_ne_true
    | some o => cases o <;> simp [hc] at h ⊢

/-- Where a number stands among the others: by sign and by being zero, finite or infinite, then by
    exponent, then by mantissa.  Below zero the last two count the other way round. -/
def rank : UnpackedFloat → ℤ ×ₗ ℤ ×ₗ ℤ
  | .infinity .negative => toLex (-2, toLex (0, 0))
  | .finite .negative m e _ => toLex (-1, toLex (-e, -(m : ℤ)))
  | .zero _ => toLex (0, toLex (0, 0))
  | .finite .positive m e _ => toLex (1, toLex (e, (m : ℤ)))
  | .infinity .positive => toLex (2, toLex (0, 0))
  | .notANumber => toLex (0, toLex (0, 0))

/-- Numbers compare as they rank. -/
theorem unpacked_compare_eq_gt_iff {a b : UnpackedFloat} (ha : a.isNaN = false)
    (hb : b.isNaN = false) : a.compare b = some .gt ↔ rank b < rank a := by
  cases a with
  | notANumber => exact absurd ha (by simp [UnpackedFloat.isNaN])
  | infinity s =>
    cases b with
    | notANumber => exact absurd hb (by simp [UnpackedFloat.isNaN])
    | infinity t => cases s <;> cases t <;> decide
    | zero t => cases s <;> simp [UnpackedFloat.compare, rank, Prod.Lex.toLex_lt_toLex]
    | finite t n f k =>
      cases s <;> cases t <;> simp [UnpackedFloat.compare, rank, Prod.Lex.toLex_lt_toLex]
  | zero s =>
    cases b with
    | notANumber => exact absurd hb (by simp [UnpackedFloat.isNaN])
    | infinity t => cases t <;> simp [UnpackedFloat.compare, rank, Prod.Lex.toLex_lt_toLex]
    | zero t => simp [UnpackedFloat.compare, rank]
    | finite t n f k => cases t <;> simp [UnpackedFloat.compare, rank, Prod.Lex.toLex_lt_toLex]
  | finite s m e h =>
    cases b with
    | notANumber => exact absurd hb (by simp [UnpackedFloat.isNaN])
    | infinity t =>
      cases s <;> cases t <;> simp [UnpackedFloat.compare, rank, Prod.Lex.toLex_lt_toLex]
    | zero t => cases s <;> simp [UnpackedFloat.compare, rank, Prod.Lex.toLex_lt_toLex]
    -- the exponents decide, and where they are equal the mantissas
    | finite t n f k =>
      cases s <;> cases t <;>
        simp [UnpackedFloat.compare, rank, Prod.Lex.toLex_lt_toLex, Ordering.then_eq_gt,
          Ordering.then_eq_lt, compare_gt_iff_gt, compare_lt_iff_lt, eq_comm (a := f)]

/-- Two values are in order if both are numbers and their ranks are. -/
theorem le_iff_rank {a b : Float} :
    a ≤ b ↔ a.isNaN = false ∧ b.isNaN = false ∧ rank a.toModel.unpack ≤ rank b.toModel.unpack := by
  rw [le_iff_compare?]
  by_cases hnan : a.isNaN = true ∨ b.isNaN = true
  · rw [compare?_eq_none_iff.2 hnan]
    grind
  · have hsome : compare? a b ≠ none := fun h => hnan (compare?_eq_none_iff.1 h)
    rw [not_or, Bool.not_eq_true, Bool.not_eq_true] at hnan
    obtain ⟨ha, hb⟩ := hnan
    have hgt : compare? a b = some .gt ↔ _ := unpacked_compare_eq_gt_iff ha hb
    rw [and_iff_right ha, and_iff_right hb, ← not_lt, ← hgt]
    cases hc : compare? a b with
    | none => exact absurd hc hsome
    | some o => cases o <;> simp

instance : Linear Float where
  le_trans hab hbc := by
    obtain ⟨ha, -, hab⟩ := le_iff_rank.1 hab
    obtain ⟨-, hc, hbc⟩ := le_iff_rank.1 hbc
    exact le_iff_rank.2 ⟨ha, hc, hab.trans hbc⟩

end Binary64

end SpanChart.Scalar
