/-
  OPERATIONS — rounding in binary64, from its bits to a nearest number.

  The core library says of binary64 how mantissas are shifted and which of their bits are looked
  at.  Here it is said once what comes of that: every operation takes a number nearest to the exact
  result (`Nearest`), whatever it is applied to, and subnormal numbers are no exception.

  1. `Locates` — a mantissa with its two residual bits says where a number lies between two whole
     ones.  Shifting keeps that, and so rounding finds one of the two that is nearest.
  2. `Fits` — an unpacked value is this number.  `fits_roundWithAccuracy` is the one lemma about
     rounding: addition, multiplication and division each prepare a mantissa for it.  The result
     still has to be packed into bits, and its exponent may be too large for that.
-/
import Mathlib
import SpanChart.Proofs.Halves
import SpanChart.Proofs.Nearest

namespace SpanChart.Numeral

open Float.Model (Format UnpackedFloat totalExponent)
open Float.Model.UnpackedFloat

/-! ## Mantissas and what is behind them

  A mantissa that was shifted to the right has two bits to say what it has lost.  They do not tell
  the lost number, but they tell enough of it to round: less than a half, a half, or more.
-/

/-- The residual bits of a mantissa say where between it and the next one a number lies: the first
    of them is for the half, the second for anything beyond what the first one says. -/
def Locates : ExtendedMantissa → ℚ → Prop
  | ⟨m, false, false⟩, x => x = m
  | ⟨m, false, true⟩, x => m < x ∧ x < m + 1 / 2
  | ⟨m, true, false⟩, x => x = m + 1 / 2
  | ⟨m, true, true⟩, x => m + 1 / 2 < x ∧ x < m + 1

namespace Locates

variable {em : ExtendedMantissa} {x : ℚ}

/-- Whatever the residual bits say, the number is not below the mantissa and below the next one. -/
theorem between (h : Locates em x) : em.mantissa ≤ x ∧ x < em.mantissa + 1 := by
  obtain ⟨m, roundBit, stickyBit⟩ := em
  cases roundBit <;> cases stickyBit <;> simp only [Locates] at h ⊢ <;>
    exact ⟨by linarith, by linarith⟩

/-- A number is rounded to one that is no more than one half off. -/
theorem near (h : Locates em x) : |x - em.roundedMantissa| ≤ 1 / 2 := by
  obtain ⟨m, roundBit, stickyBit⟩ := em
  rw [abs_sub_le_iff]
  cases roundBit <;> cases stickyBit <;> simp only [Locates] at h <;>
    simp only [ExtendedMantissa.roundedMantissa, ExtendedMantissa.accuracy,
      Accuracy.roundToNearestEven]
  · constructor <;> linarith
  · constructor <;> linarith
  -- exactly one half: it goes to the even one of the two, and both are half a unit off
  · rcases Nat.mod_two_eq_zero_or_one m with hm | hm <;> rw [hm] <;> push_cast <;>
      constructor <;> linarith
  · push_cast
    constructor <;> linarith

/-- The last bit of a mantissa becomes the first one that is residual. -/
theorem shiftRightOne (h : Locates em x) : Locates em.shiftRightOne (x / 2) := by
  obtain ⟨m, roundBit, stickyBit⟩ := em
  obtain ⟨k, rfl | rfl⟩ := Nat.even_or_odd' m
  -- an even mantissa: nothing is added to what is behind it, and all of that is halved
  · have hhalf : 2 * k / 2 = k := by omega
    have heven : (2 * k % 2 != 0) = false := by simp
    simp only [ExtendedMantissa.shiftRightOne, hhalf, heven]
    cases roundBit <;> cases stickyBit <;>
      simp only [Locates, Bool.or_false, Bool.or_true] at h ⊢ <;> push_cast at h
    · linarith
    · constructor <;> linarith
    · constructor <;> linarith
    · constructor <;> linarith
  -- an odd one: its last bit is now the half
  · have hhalf : (2 * k + 1) / 2 = k := by omega
    have hodd : ((2 * k + 1) % 2 != 0) = true := by simp [Nat.add_mod]
    simp only [ExtendedMantissa.shiftRightOne, hhalf, hodd]
    cases roundBit <;> cases stickyBit <;>
      simp only [Locates, Bool.or_false, Bool.or_true] at h ⊢ <;> push_cast at h
    · linarith
    · constructor <;> linarith
    · constructor <;> linarith
    · constructor <;> linarith

/-- Shifting by several bits is shifting by one several times; what has once been dropped is still
    there in the second residual bit. -/
theorem shiftRight (h : Locates em x) (j : ℕ) : Locates (em >>> j) (x / 2 ^ j) := by
  show Locates (Nat.repeat ExtendedMantissa.shiftRightOne j em) _
  induction j with
  | zero => rwa [pow_zero, div_one]
  | succ j ih =>
    rw [Nat.repeat, pow_succ, ← div_div]
    exact ih.shiftRightOne

end Locates

/-- With nothing behind it a mantissa is the number. -/
theorem locates_exact (m : ℕ) : Locates (ExtendedMantissa.ofMantissaAndAccuracy m .exact) m :=
  rfl

/-- What a division leaves over says where the quotient lies. -/
theorem locates_div (m : ℕ) {d : ℕ} (hd : 0 < d) :
    Locates (.ofMantissaAndAccuracy (m / d) (accuracyOfFraction (m % d) d)) (m / d) := by
  have hpos : (0 : ℚ) < d := by exact_mod_cast hd
  have hsplit : (m : ℚ) = (m / d : ℕ) * d + (m % d : ℕ) := by
    exact_mod_cast (Nat.div_add_mod' m d).symm
  have hrest : m % d < d := Nat.mod_lt m hd
  -- from here on only quotient and rest are known, and the rest is compared with one half
  generalize m / d = q, m % d = r at hsplit hrest ⊢
  have hquotient : (m : ℚ) / d = q + r / d := by
    rw [hsplit, add_div, mul_div_cancel_right₀ _ hpos.ne']
  rw [hquotient, accuracyOfFraction]
  split
  case isTrue hzero =>
    subst hzero
    simp [ExtendedMantissa.ofMantissaAndAccuracy, Locates]
  case isFalse hne =>
    have hr : (0 : ℚ) < r := by exact_mod_cast Nat.pos_of_ne_zero hne
    rcases lt_trichotomy (2 * r) d with hlt | heq | hgt
    · have hhalf : (r : ℚ) / d < 1 / 2 := by
        rw [div_lt_div_iff₀ hpos two_pos]
        exact_mod_cast (by omega : r * 2 < 1 * d)
      rw [Nat.compare_eq_lt.2 hlt]
      exact ⟨by have := div_pos hr hpos; linarith, by linarith⟩
    · have hhalf : (r : ℚ) / d = 1 / 2 := by
        rw [div_eq_div_iff hpos.ne' two_ne_zero]
        exact_mod_cast (by omega : r * 2 = 1 * d)
      rw [Nat.compare_eq_eq.2 heq, hhalf]
      rfl
    · have hhalf : 1 / 2 < (r : ℚ) / d := by
        rw [div_lt_div_iff₀ two_pos hpos]
        exact_mod_cast (by omega : 1 * d < r * 2)
      have hone : (r : ℚ) / d < 1 := by
        rw [div_lt_one hpos]
        exact_mod_cast hrest
      rw [Nat.compare_eq_gt.2 hgt]
      exact ⟨by linarith, by linarith⟩

/-! ## Rounding

  Rounding shifts twice.  First the mantissa is brought to the unit of the number and the residual
  bits decide between it and the next one; then, because the next one may have one bit more, it is
  brought to its unit again, which this time drops a zero at most.
-/

/-- The number with this sign, this mantissa and this exponent. -/
def signed : Sign → ℕ → ℤ → ℚ
  | .positive, m, e => size m e
  | .negative, m, e => -size m e

/-- An unpacked value is this number, in the one form that binary64 gives it. -/
inductive Fits : UnpackedFloat → ℚ → Prop
  | zero (s : Sign) : Fits (.zero s) 0
  | finite (s : Sign) {m : ℕ} {e : ℤ} (hpos : 0 < m) (canonical : Canonical m e) :
      Fits (.finite s m e hpos) (signed s m e)

/-- The exponent to shift to leaves fifty-three bits, or is the least one. -/
theorem targetExponent_eq (m : ℕ) (e : ℤ) :
    Format.binary64.targetExponent (totalExponent m e) = max (m.log2 + e - 52) (-1074) := by
  simp only [Format.targetExponent, totalExponent, Format.mantissaBits, Format.minExponent]
  omega

/-- The exponent that binary64 gives a number is that of its unit, if it is not less than the one
    the number has already. -/
theorem unitOf_targetExponent {m : ℕ} {e : ℤ} {v : ℚ} (hlow : size m e ≤ v)
    (hhigh : v < size (m + 1) e)
    (he : e ≤ Format.binary64.targetExponent (totalExponent m e)) :
    UnitOf v (Format.binary64.targetExponent (totalExponent m e)) := by
  rw [targetExponent_eq] at he ⊢
  refine ⟨le_max_right _ _, ?_, ?_⟩
  -- a unit is not larger than the number allows, unless it is the least one
  · rcases Nat.eq_zero_or_pos m with rfl | hpos
    · left
      have hlog : Nat.log2 0 = 0 := rfl
      rw [hlog] at he ⊢
      omega
    · rcases max_cases ((m.log2 : ℤ) + e - 52) (-1074) with ⟨hmax, -⟩ | ⟨hmax, -⟩
      · right
        rw [hmax, sub_add_cancel, add_comm]
        refine le_trans ?_ hlow
        rw [← size_two_pow]
        exact size_le_size_iff.2 (Nat.log2_self_le hpos.ne')
      · exact Or.inl hmax
  -- and the number has no more than fifty-three bits in front of it
  · have hpow : size (m + 1) e ≤ 2 ^ (e + (m.log2 + 1 : ℕ)) := by
      rw [← size_two_pow]
      exact size_le_size_iff.2 Nat.lt_log2_self
    refine lt_of_lt_of_le (lt_of_lt_of_le hhigh hpow) (two_zpow_le ?_)
    push_cast
    omega

/-- A mantissa of fifty-three bits stays as it is; if rounding made it one longer, a zero is
    dropped. -/
theorem exists_shiftToTargetExponent {n : ℕ} {t : ℤ} (hn : n ≤ 2 ^ 53) (ht : -1074 ≤ t)
    (hfull : t = -1074 ∨ 2 ^ 52 ≤ n) :
    ∃ m e, shiftToTargetExponent Format.binary64 n t .exact = (⟨m, false, false⟩, e) ∧
      Canonical m e ∧ size m e = size n t := by
  rcases Nat.lt_or_eq_of_le hn with hlt | rfl
  · have hlog := log2_le hlt
    have htarget : Format.binary64.targetExponent (totalExponent n t) = t := by
      rw [targetExponent_eq]
      rcases hfull with hleast | hfull
      · omega
      · rw [Normal.log2 ⟨hfull, hlt⟩]
        omega
    refine ⟨n, t, ?_, ⟨hlt, ht, hfull⟩, rfl⟩
    simp only [shiftToTargetExponent, shiftToExponent, htarget, sub_self, Int.toNat_zero]
    exact congrArg _ (add_zero t)
  -- rounded up to a power of two: the one zero is dropped that is too many
  · have htarget : Format.binary64.targetExponent (totalExponent (2 ^ 53) t) = t + 1 := by
      rw [targetExponent_eq, Nat.log2_two_pow]
      omega
    refine ⟨2 ^ 52, t + 1, ?_, ⟨by norm_num, by omega, Or.inr le_rfl⟩, ?_⟩
    · simp only [shiftToTargetExponent, shiftToExponent, htarget, add_sub_cancel_left,
        Int.toNat_one]
      rfl
    · rw [size_two_pow, size_two_pow]
      congr 1
      push_cast
      ring

/-- Whole units next to a number of fifty-three bits are that many at most, and no fewer than a
    normal mantissa has, where there are smaller units. -/
theorem Nearest.mantissa {v : ℚ} {n : ℕ} {t : ℤ} (h : Nearest v (size n t)) (ht : UnitOf v t) :
    n ≤ 2 ^ 53 ∧ (t = -1074 ∨ 2 ^ 52 ≤ n) := by
  have hleast := ht.least
  constructor
  · rw [← size_le_size_iff (t := t), size_two_pow]
    exact h.le (onGrid_two_zpow (by omega)) ht.below.le
  · refine ht.above.imp_right fun habove => ?_
    rw [← size_le_size_iff (t := t), size_two_pow]
    exact h.ge (onGrid_two_zpow (by omega)) habove

/-- Shifting a mantissa to the unit of a number and rounding off what is behind it takes a nearest
    number. -/
theorem Locates.nearest {em : ExtendedMantissa} {x : ℚ} (hx : Locates em x) {e t : ℤ} (he : e ≤ t)
    (ht : UnitOf (x * 2 ^ e) t) :
    Nearest (x * 2 ^ e) (size (em >>> (t - e).toNat).roundedMantissa t) := by
  have hpos := two_zpow_pos t
  -- counted in units of the target, what is rounded is the number itself
  have hscaled : x / 2 ^ (t - e).toNat = x * 2 ^ e / 2 ^ t := by
    have hcast : (((t - e).toNat : ℕ) : ℤ) = t - e := Int.toNat_of_nonneg (by omega)
    rw [← zpow_natCast, hcast, zpow_sub₀ two_ne_zero, div_div_eq_mul_div]
  have hnear := (hx.shiftRight (t - e).toNat).near
  rw [hscaled] at hnear
  refine ⟨t, ht, _, rfl, ?_⟩
  generalize (em >>> (t - e).toNat).roundedMantissa = n at hnear ⊢
  have hfactor : x * 2 ^ e - size n t = (x * 2 ^ e / 2 ^ t - n) * 2 ^ t := by
    rw [sub_mul, div_mul_cancel₀ _ hpos.ne', size]
  rw [hfactor, abs_mul, abs_of_pos hpos]
  linarith [mul_le_mul_of_nonneg_right hnear hpos.le]

/-- **Rounding takes a nearest number.** -/
theorem fits_roundWithAccuracy {m : ℕ} {e : ℤ} {accuracy : Accuracy} {x : ℚ}
    (hx : Locates (ExtendedMantissa.ofMantissaAndAccuracy m accuracy) x)
    (he : e ≤ Format.binary64.targetExponent (totalExponent m e)) :
    ∃ r, Nearest (x * 2 ^ e) r ∧
      Fits (roundWithAccuracy Format.binary64 .positive m e accuracy) r := by
  -- the accuracy is kept in the residual bits and leaves the mantissa alone
  have hmantissa : (ExtendedMantissa.ofMantissaAndAccuracy m accuracy).mantissa = m := by
    cases accuracy with
    | exact => rfl
    | inexact relative => cases relative <;> rfl
  have hunit : UnitOf (x * 2 ^ e) (Format.binary64.targetExponent (totalExponent m e)) := by
    have hpos := two_zpow_pos e
    have hbetween := hx.between
    rw [hmantissa] at hbetween
    refine unitOf_targetExponent ?_ ?_ he
    · exact mul_le_mul_of_nonneg_right hbetween.1 hpos.le
    · rw [size, Nat.cast_succ]
      exact mul_lt_mul_of_pos_right hbetween.2 hpos
  generalize htarget : Format.binary64.targetExponent (totalExponent m e) = t at he hunit
  have hrounded := hx.nearest he hunit
  -- first the mantissa is shifted to the unit and rounded, then it may have one bit too many
  have hfirst : shiftToTargetExponent Format.binary64 m e accuracy =
      (ExtendedMantissa.ofMantissaAndAccuracy m accuracy >>> (t - e).toNat, t) := by
    simp only [shiftToTargetExponent, shiftToExponent, htarget]
    refine Prod.ext rfl ?_
    show e + ((t - e).toNat : ℤ) = t
    omega
  generalize hn : (ExtendedMantissa.ofMantissaAndAccuracy m accuracy >>>
    (t - e).toNat).roundedMantissa = n at hrounded
  obtain ⟨hle, hfull⟩ := hrounded.mantissa hunit
  obtain ⟨k, s, hsecond, hcanonical, hsize⟩ := exists_shiftToTargetExponent hle hunit.least hfull
  refine ⟨size n t, hrounded, ?_⟩
  simp only [roundWithAccuracy, hfirst, hn, hsecond]
  -- all the same it may have been rounded to zero, which has a form of its own
  rw [← hsize]
  split
  case isTrue hzero =>
    subst hzero
    rw [size, Nat.cast_zero, zero_mul]
    exact .zero _
  case isFalse hne => exact .finite .positive _ hcanonical

/-- A mantissa may be brought to a smaller exponent. -/
theorem size_decreaseExponent (m : ℕ) {e t : ℤ} (h : t ≤ e) :
    size (decreaseExponent m e t).1 t = size m e := by
  simp only [decreaseExponent, Nat.shiftLeft_eq]
  rw [size_mul_two_pow, Int.toNat_of_nonneg (by omega), add_sub_cancel]

/-- Zero is a number of binary64 with any unit. -/
theorem onGrid_zero : OnGrid 0 := ⟨0, 0, by norm_num, by norm_num, by simp [size]⟩

/-- A mantissa and an exponent of any size are rounded to a nearest number.  An exponent that is too
    large is made smaller first, with zeros behind the mantissa. -/
theorem fits_round {m : ℕ} (hpos : 0 < m) (e : ℤ) :
    ∃ r, Nearest (size m e) r ∧ Fits (UnpackedFloat.round Format.binary64 .positive m e) r := by
  simp only [UnpackedFloat.round]
  generalize htarget : Format.binary64.targetExponent (totalExponent m e) = t
  have hexponent : (decreaseExponent m e t).2 = min e t := by
    simp only [decreaseExponent]
    omega
  -- the zeros change neither the number nor the exponent that is aimed at
  have htotal : totalExponent (decreaseExponent m e t).1 (decreaseExponent m e t).2 =
      totalExponent m e := by
    simp only [totalExponent, decreaseExponent, Nat.shiftLeft_eq]
    rw [log2_mul_two_pow hpos]
    push_cast
    omega
  have hsize : size (decreaseExponent m e t).1 (decreaseExponent m e t).2 = size m e := by
    rcases le_or_gt t e with hle | hgt
    · rw [hexponent, min_eq_right hle]
      exact size_decreaseExponent m hle
    · have hnone : (e - t).toNat = 0 := by omega
      simp [decreaseExponent, hnone]
  rw [← hsize]
  refine fits_roundWithAccuracy (locates_exact _) ?_
  rw [htotal, htarget, hexponent]
  exact min_le_right e t

/-- The same for a mantissa with a sign, if it is not negative in the end. -/
theorem fits_normalize {m : ℤ} (hm : 0 ≤ m) (e : ℤ) :
    ∃ r, Nearest (m * 2 ^ e) r ∧
      Fits (UnpackedFloat.normalize Format.binary64 m e .positive) r := by
  rcases hm.eq_or_lt with rfl | hpos
  · refine ⟨0, ?_, .zero _⟩
    rw [Int.cast_zero, zero_mul]
    exact onGrid_zero.nearest
  · lift m to ℕ using hm
    have hcompare : compare (m : ℤ) 0 = .gt := compare_gt_iff_gt.2 hpos
    simp only [UnpackedFloat.normalize, hcompare, Int.toNat_natCast]
    exact fits_round (by exact_mod_cast hpos) e

/-! ## The operations

  Nothing here is about results with a minus: a layout has none, and where a difference is taken the
  values are in order.  Only within a difference a summand is negative.
-/

theorem size_pos {m : ℕ} (hpos : 0 < m) (e : ℤ) : 0 < size m e :=
  mul_pos (Nat.cast_pos.2 hpos) (two_zpow_pos e)

/-- The sign may as well be that of an integer mantissa. -/
theorem signed_eq (s : Sign) (m : ℕ) (e : ℤ) : signed s m e = (s.apply m : ℤ) * 2 ^ e := by
  cases s <;> simp [signed, size, Sign.apply]

theorem signed_neg (s : Sign) (m : ℕ) (e : ℤ) : signed (-s) m e = -signed s m e := by
  cases s
  · exact (neg_neg _).symm
  · rfl

theorem Canonical.onGrid {m : ℕ} {e : ℤ} (h : Canonical m e) : OnGrid (size m e) :=
  onGrid_size h.lt h.least

namespace Fits

variable {u w : UnpackedFloat} {a b : ℚ}

/-- A value is one number at most. -/
theorem unique (h : Fits u a) (h' : Fits u b) : a = b := by
  cases h <;> cases h' <;> rfl

/-- A number that is not negative fits a zero or a positive mantissa. -/
theorem cases_of_nonneg (h : Fits u a) (ha : 0 ≤ a) :
    (∃ s, u = .zero s ∧ a = 0) ∨
      ∃ m e hpos, u = .finite .positive m e hpos ∧ Canonical m e ∧ a = size m e := by
  cases h with
  | zero s => exact Or.inl ⟨s, rfl, rfl⟩
  | finite s hpos canonical =>
    cases s with
    | positive => exact Or.inr ⟨_, _, hpos, rfl, canonical, rfl⟩
    | negative => exact absurd ha (not_le.2 (neg_neg_of_pos (size_pos hpos _)))

/-- What a value is needs no rounding. -/
theorem onGrid (h : Fits u a) (ha : 0 ≤ a) : OnGrid a := by
  rcases h.cases_of_nonneg ha with ⟨s, -, rfl⟩ | ⟨m, e, hpos, -, canonical, rfl⟩
  · exact onGrid_zero
  · exact canonical.onGrid

/-- The other sign is the other number, with the same mantissa. -/
theorem neg (h : Fits u a) : Fits u.neg (-a) := by
  cases h with
  | zero s =>
    rw [neg_zero]
    exact .zero _
  | finite s hpos canonical =>
    rw [← signed_neg]
    exact .finite _ hpos canonical

/-- Mantissas are aligned and added with their signs, and the sum is rounded. -/
theorem add_finite {s t : Sign} {m n : ℕ} {e f : ℤ} (hm : 0 < m) (hn : 0 < n)
    (hsum : 0 ≤ signed s m e + signed t n f) :
    ∃ r, Nearest (signed s m e + signed t n f) r ∧
      Fits (UnpackedFloat.add Format.binary64 (.finite s m e hm) (.finite t n f hn)) r := by
  -- both mantissas are brought to the smaller exponent, which changes neither number
  have haligned : ∀ (s : Sign) (k : ℕ) {d : ℤ}, min e f ≤ d →
      signed s k d = signed s (decreaseExponent k d (min e f)).1 (min e f) := by
    intro s k d hd
    cases s <;> simp only [signed, size_decreaseExponent k hd]
  rw [haligned s m (min_le_left e f), haligned t n (min_le_right e f), signed_eq, signed_eq,
    ← add_mul, ← Int.cast_add] at hsum ⊢
  refine fits_normalize ?_ _
  exact_mod_cast nonneg_of_mul_nonneg_left hsum (two_zpow_pos _)

/-- **A sum is rounded to a nearest number.** -/
theorem add (hu : Fits u a) (hw : Fits w b) (hsum : 0 ≤ a + b) :
    ∃ r, Nearest (a + b) r ∧ Fits (UnpackedFloat.add Format.binary64 u w) r := by
  cases hu with
  | zero s =>
    rw [zero_add] at hsum ⊢
    -- with nothing added the other summand is the sum, and it is on the grid
    refine ⟨b, (hw.onGrid hsum).nearest, ?_⟩
    cases hw with
    | zero t => cases s <;> cases t <;> exact .zero _
    | finite t hpos canonical => exact .finite t hpos canonical
  | finite s hpos canonical =>
    cases hw with
    | zero t =>
      rw [add_zero] at hsum ⊢
      have hfits := Fits.finite s hpos canonical
      exact ⟨_, (hfits.onGrid hsum).nearest, hfits⟩
    | finite t hpos' canonical' => exact add_finite hpos hpos' hsum

/-- A difference is the sum with the other sign, of zeros as well, which keep signs of their own. -/
theorem sub_eq (hu : Fits u a) (hw : Fits w b) :
    UnpackedFloat.sub Format.binary64 u w = UnpackedFloat.add Format.binary64 u w.neg := by
  cases hu with
  | zero s => cases hw <;> rfl
  | finite s hpos canonical =>
    cases hw with
    | zero t => rfl
    | finite t hpos' canonical' =>
      -- subtracting a mantissa is adding it with the other sign
      have happly : ∀ k : ℕ, (-t).apply k = -t.apply k := by
        intro k
        cases t
        · exact (neg_neg _).symm
        · rfl
      simp only [UnpackedFloat.sub, UnpackedFloat.add, UnpackedFloat.neg, happly]
      rfl

/-- **A difference is rounded to a nearest number.** -/
theorem sub (hu : Fits u a) (hw : Fits w b) (hle : b ≤ a) :
    ∃ r, Nearest (a - b) r ∧ Fits (UnpackedFloat.sub Format.binary64 u w) r := by
  rw [hu.sub_eq hw, sub_eq_add_neg]
  exact hu.add hw.neg (by rwa [← sub_eq_add_neg, sub_nonneg])

/-- **A product is rounded to a nearest number.** -/
theorem mul (hu : Fits u a) (hw : Fits w b) (ha : 0 ≤ a) (hb : 0 ≤ b) :
    ∃ r, Nearest (a * b) r ∧ Fits (UnpackedFloat.mul Format.binary64 u w) r := by
  rcases hu.cases_of_nonneg ha with ⟨s, rfl, rfl⟩ | ⟨m, e, hpos, rfl, canonical, rfl⟩
  · rw [zero_mul]
    refine ⟨0, onGrid_zero.nearest, ?_⟩
    cases hw <;> exact .zero _
  · rcases hw.cases_of_nonneg hb with ⟨t, rfl, rfl⟩ | ⟨n, f, hpos', rfl, canonical', rfl⟩
    · rw [mul_zero]
      exact ⟨0, onGrid_zero.nearest, .zero _⟩
    -- the product of the mantissas is exact, so all there is to show is that it is long enough
    · have hproduct : size m e * size n f = (m * n : ℕ) * 2 ^ (e + f) := by
        rw [size, size, zpow_add₀ two_ne_zero]
        push_cast
        ring
      rw [hproduct]
      refine fits_roundWithAccuracy (locates_exact _) ?_
      rw [targetExponent_eq]
      -- one normal factor makes the product long enough, and without one its exponent is small
      have hlong : 2 ^ 52 ≤ m ∨ 2 ^ 52 ≤ n → 52 ≤ (m * n).log2 := by
        intro h
        refine (Nat.le_log2 (Nat.mul_pos hpos hpos').ne').2 ?_
        rcases h with h | h
        · exact h.trans (Nat.le_mul_of_pos_right m hpos')
        · exact h.trans (Nat.le_mul_of_pos_left n hpos)
      rcases canonical.full with he | hm
      · rcases canonical'.full with hf | hn
        · omega
        · have := hlong (Or.inr hn)
          omega
      · have := hlong (Or.inl hm)
        omega

/-- A quotient is prepared for rounding: its mantissa is long enough, unless its exponent is as
    small as there is, and what is left over says where the quotient lies. -/
theorem divCore_spec {m n : ℕ} (hm : 0 < m) (hn : 0 < n) (e f : ℤ) :
    ∃ q d accuracy x, divCore Format.binary64 m e n f = (q, d, accuracy) ∧
      Locates (ExtendedMantissa.ofMantissaAndAccuracy q accuracy) x ∧
      d ≤ Format.binary64.targetExponent (totalExponent q d) ∧
      x * 2 ^ d = size m e / size n f := by
  obtain ⟨d, hd⟩ : ∃ d, d = min (e - f)
    (Format.binary64.targetExponent (totalExponent m e - totalExponent n f)) := ⟨_, rfl⟩
  have hshift : (((e - f - d).toNat : ℕ) : ℤ) = e - f - d := Int.toNat_of_nonneg (by omega)
  generalize hj : (e - f - d).toNat = j at hshift
  refine ⟨m * 2 ^ j / n, d, _, (m * 2 ^ j : ℕ) / n, ?_, locates_div _ hn, ?_, ?_⟩
  -- the mantissa that is divided is shifted up first, by as much as the target asks for
  · simp only [divCore, ← hd, hj, Nat.shiftLeft_eq]
  · rw [targetExponent_eq]
    have htarget : d ≤ m.log2 + e - (n.log2 + f) - 53 ∨ d ≤ -1074 := by
      simp only [Format.targetExponent, totalExponent, Format.mantissaBits,
        Format.minExponent] at hd
      omega
    rcases htarget with hlarge | hsmall
    -- above the least exponent the quotient comes out with fifty-three bits or more
    · have hlong : 2 ^ 52 ≤ m * 2 ^ j / n := by
        rw [Nat.le_div_iff_mul_le hn]
        calc 2 ^ 52 * n ≤ 2 ^ 52 * 2 ^ (n.log2 + 1) := Nat.mul_le_mul_left _ Nat.lt_log2_self.le
          _ = 2 ^ (n.log2 + 53) := by rw [← pow_add]; congr 1; omega
          _ ≤ 2 ^ (m.log2 + j) := Nat.pow_le_pow_right two_pos (by omega)
          _ = 2 ^ m.log2 * 2 ^ j := pow_add _ _ _
          _ ≤ m * 2 ^ j := Nat.mul_le_mul_right _ (Nat.log2_self_le hm.ne')
      have := (Nat.le_log2 (by omega)).2 hlong
      omega
    · omega
  -- and the shift is made up for by the exponent
  · have hn' : (n : ℚ) ≠ 0 := by exact_mod_cast hn.ne'
    have hunit : (2 : ℚ) ^ e = 2 ^ j * 2 ^ d * 2 ^ f := by
      rw [← zpow_natCast, ← zpow_add₀ two_ne_zero, ← zpow_add₀ two_ne_zero]
      congr 1
      omega
    rw [size, size, hunit, Nat.cast_mul, Nat.cast_pow, Nat.cast_ofNat]
    field_simp

/-- **A quotient is rounded to a nearest number.** -/
theorem div (hu : Fits u a) (hw : Fits w b) (ha : 0 ≤ a) (hb : 0 < b) :
    ∃ r, Nearest (a / b) r ∧ Fits (UnpackedFloat.div Format.binary64 u w) r := by
  rcases hw.cases_of_nonneg hb.le with ⟨t, -, rfl⟩ | ⟨n, f, hpos', rfl, canonical', rfl⟩
  · exact absurd hb (lt_irrefl 0)
  · rcases hu.cases_of_nonneg ha with ⟨s, rfl, rfl⟩ | ⟨m, e, hpos, rfl, canonical, rfl⟩
    · rw [zero_div]
      exact ⟨0, onGrid_zero.nearest, .zero _⟩
    · obtain ⟨q, d, accuracy, x, hcore, hx, hd, hquotient⟩ := divCore_spec hpos hpos' e f
      simp only [UnpackedFloat.div, hcore]
      rw [← hquotient]
      exact fits_roundWithAccuracy hx hd

/-- Exponents are compared first, and mantissas where these are the same. -/
theorem compare_size {m n : ℕ} {e f : ℤ} (hm : Canonical m e) (hn : Canonical n f) :
    (compare e f).then (compare m n) = compare (size m e) (size n f) := by
  rcases lt_trichotomy e f with hlt | rfl | hgt
  -- of two numbers in their one form the smaller one does not have the larger exponent
  · have hsize : size m e < size n f := by
      by_contra hle
      exact absurd (hn.exponent_le hm (not_lt.1 hle)) (not_le.2 hlt)
    rw [compare_lt_iff_lt.2 hlt, compare_lt_iff_lt.2 hsize]
    rfl
  · have hpos := two_zpow_pos e
    rw [compare_eq_iff_eq.2 (rfl : e = e)]
    show compare m n = _
    rcases lt_trichotomy m n with h | rfl | h
    · rw [compare_lt_iff_lt.2 h, compare_lt_iff_lt.2]
      exact mul_lt_mul_of_pos_right (Nat.cast_lt.2 h) hpos
    · rw [compare_eq_iff_eq.2 rfl, compare_eq_iff_eq.2 rfl]
    · rw [compare_gt_iff_gt.2 h, compare_gt_iff_gt.2]
      exact mul_lt_mul_of_pos_right (Nat.cast_lt.2 h) hpos
  · have hsize : size n f < size m e := by
      by_contra hle
      exact absurd (hm.exponent_le hn (not_lt.1 hle)) (not_le.2 hgt)
    rw [compare_gt_iff_gt.2 hgt, compare_gt_iff_gt.2 hsize]
    rfl

theorem compare_neg_neg (x y : ℚ) : compare (-x) (-y) = (compare x y).swap := by
  rcases lt_trichotomy x y with h | rfl | h
  · rw [compare_lt_iff_lt.2 h, compare_gt_iff_gt.2 (neg_lt_neg h)]
    rfl
  · rw [compare_eq_iff_eq.2 rfl, compare_eq_iff_eq.2 rfl]
    rfl
  · rw [compare_gt_iff_gt.2 h, compare_lt_iff_lt.2 (neg_lt_neg h)]
    rfl

/-- **Values compare as the numbers do** that they fit. -/
theorem compare_eq (hu : Fits u a) (hw : Fits w b) : u.compare w = some (compare a b) := by
  cases hu with
  | zero s =>
    cases hw with
    | zero t => exact congrArg some (compare_eq_iff_eq.2 rfl).symm
    | finite t hpos canonical =>
      have hsize := size_pos hpos ‹_›
      cases t with
      | positive => exact congrArg some (compare_lt_iff_lt.2 hsize).symm
      | negative => exact congrArg some (compare_gt_iff_gt.2 (neg_neg_of_pos hsize)).symm
  | finite s hpos canonical =>
    have hsize := size_pos hpos ‹_›
    cases hw with
    | zero t =>
      cases s with
      | positive => exact congrArg some (compare_gt_iff_gt.2 hsize).symm
      | negative => exact congrArg some (compare_lt_iff_lt.2 (neg_neg_of_pos hsize)).symm
    | finite t hpos' canonical' =>
      have hsize' := size_pos hpos' ‹_›
      -- of the same sign the mantissas and exponents decide, with a minus the other way round
      have hmagnitude := compare_size canonical canonical'
      cases s with
      | positive =>
        cases t with
        | positive => exact congrArg some hmagnitude
        | negative =>
          exact congrArg some
            (compare_gt_iff_gt.2 (lt_trans (neg_neg_of_pos hsize') hsize)).symm
      | negative =>
        cases t with
        | positive =>
          exact congrArg some (compare_lt_iff_lt.2 (lt_trans (neg_neg_of_pos hsize) hsize')).symm
        | negative =>
          refine congrArg some ?_
          rw [hmagnitude, signed, signed, compare_neg_neg]

end Fits

end SpanChart.Numeral
