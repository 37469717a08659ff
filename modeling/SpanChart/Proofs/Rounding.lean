/-
  ROUNDING — how far a number is from its leading digits.

  A positive fraction is written with a fixed number of decimal digits.  `significant` finds the
  decade it lies in (`decade_bounds`), scales it to that many digits and takes the nearest integer,
  which is at most one half away (`nearest_error`).  Going over to the next decade loses nothing,
  since it happens only where the digits come to a power of ten (`exists_rounded`).

  What is used of all this is said relative to the number itself: with `places` digits, what is
  written differs from it by no more than one part in `2 · 10 ^ (places - 1)`
  (`significant_error`), and takes exactly that many digits (`length_digits_significant`).
-/
import Mathlib
import SpanChart.Numeral.Significant

namespace SpanChart.Numeral

/-! ## The nearest integer -/

/-- Twice the nearest integer is at most one denominator away from twice the number. -/
theorem nearest_bounds (num : Nat) {den : Nat} (hden : 0 < den) :
    2 * (den * nearest num den) ≤ 2 * num + den ∧ 2 * num ≤ 2 * (den * nearest num den) + den := by
  have hdivision := Nat.div_add_mod num den
  have hrest : num % den < den := Nat.mod_lt num hden
  simp only [nearest]
  generalize num / den = q at hdivision ⊢
  generalize num % den = r at hdivision hrest ⊢
  split
  · omega
  · split
    · rw [Nat.mul_succ]
      omega
    · -- a tie, which goes up or down
      rcases Nat.mod_two_eq_zero_or_one q with heven | hodd
      · rw [heven, Nat.add_zero]
        omega
      · rw [hodd, Nat.mul_succ]
        omega

/-- The nearest integer is at most one half away. -/
theorem nearest_error (num : Nat) {den : Nat} (hden : 0 < den) :
    |(num : ℚ) / den - nearest num den| ≤ 1 / 2 := by
  obtain ⟨hlow, hhigh⟩ := nearest_bounds num hden
  have hden' : (0 : ℚ) < den := Nat.cast_pos.2 hden
  have hlow' : (2 : ℚ) * (den * nearest num den) ≤ 2 * num + den := by exact_mod_cast hlow
  have hhigh' : (2 : ℚ) * num ≤ 2 * (den * nearest num den) + den := by exact_mod_cast hhigh
  rw [abs_sub_le_iff, sub_le_iff_le_add, sub_le_iff_le_add, div_le_iff₀ hden', ← sub_le_iff_le_add',
    le_div_iff₀ hden']
  constructor
  · linarith
  · linarith

/-! ## Decades -/

/-- A number has `k` digits if it is below `10 ^ k` and not below `10 ^ (k - 1)`. -/
theorem digitCount_bounds {n : Nat} (hn : 0 < n) :
    10 ^ (digitCount n - 1) ≤ n ∧ n < 10 ^ digitCount n := by
  have hpos : 0 < digitCount n := Nat.length_toDigits_pos
  constructor
  · by_contra hlt
    rw [not_le] at hlt
    by_cases hone : digitCount n = 1
    · rw [hone] at hlt
      omega
    · have hle : digitCount n ≤ digitCount n - 1 :=
        (Nat.length_toDigits_le_iff (by decide) (by omega)).2 hlt
      omega
  · exact (Nat.length_toDigits_le_iff (by decide) hpos).1 (le_refl _)

/-- **A number lies in its decade.**  Below one, the decade is found from the integers that the
    denominator divided by the numerator lies between. -/
theorem decade_bounds {num den : Nat} (hnum : 0 < num) (hden : 0 < den) :
    (10 : ℚ) ^ decade num den ≤ num / den ∧ (num : ℚ) / den < 10 ^ (decade num den + 1) := by
  have hden' : (0 : ℚ) < den := Nat.cast_pos.2 hden
  rw [le_div_iff₀ hden', div_lt_iff₀ hden']
  unfold decade
  split
  · next hle =>
    obtain ⟨hlow, hhigh⟩ := digitCount_bounds (Nat.div_pos hle hden)
    have hpos : 0 < digitCount (num / den) := Nat.length_toDigits_pos
    generalize digitCount (num / den) = c at hlow hhigh hpos
    have hexponent : (c : ℤ) - 1 = ((c - 1 : ℕ) : ℤ) := by omega
    have hlow' : 10 ^ (c - 1) * den ≤ num := (Nat.le_div_iff_mul_le hden).1 hlow
    have hhigh' : num < 10 ^ c * den := (Nat.div_lt_iff_lt_mul hden).1 hhigh
    rw [sub_add_cancel, hexponent, zpow_natCast, zpow_natCast]
    exact_mod_cast And.intro hlow' hhigh'
  · next hlt =>
    -- `den / num`, rounded up and less one, has as many digits as the decade is below zero
    have hk : 0 < (den - 1) / num := Nat.div_pos (by omega) hnum
    obtain ⟨hlow, hhigh⟩ := digitCount_bounds hk
    have hpos : 0 < digitCount ((den - 1) / num) := Nat.length_toDigits_pos
    generalize digitCount ((den - 1) / num) = c at hlow hhigh hpos
    have hlow' : 10 ^ (c - 1) * num < den := by
      have := (Nat.le_div_iff_mul_le hnum).1 hlow
      omega
    have hhigh' : den ≤ 10 ^ c * num := by
      have := (Nat.div_lt_iff_lt_mul hnum).1 hhigh
      omega
    have hexponent : -(c : ℤ) + 1 = -((c - 1 : ℕ) : ℤ) := by omega
    have hpow : ∀ k : ℕ, (0 : ℚ) < 10 ^ k := fun k => by positivity
    rw [hexponent, zpow_neg, zpow_neg, zpow_natCast, zpow_natCast, inv_mul_le_iff₀ (hpow c),
      lt_inv_mul_iff₀ (hpow (c - 1))]
    exact_mod_cast And.intro hhigh' hlow'

/-! ## Leading digits -/

namespace Significant

/-- The number that leading digits stand for. -/
def value (places : Nat) (s : Significant) : ℚ :=
  s.digits * (10 : ℚ) ^ (s.decade + 1 - places)

end Significant

/-- A fraction scaled by a power, up in the numerator or down in the denominator. -/
theorem scaled_eq (base num den : Nat) (shift : ℤ) :
    ((num * base ^ shift.toNat : ℕ) : ℚ) / ((den * base ^ (-shift).toNat : ℕ) : ℚ) =
      (num : ℚ) / den * (base : ℚ) ^ shift := by
  push_cast
  rcases le_or_gt 0 shift with h | h
  · have hdown : (-shift).toNat = 0 := by omega
    have hup : ((shift.toNat : ℕ) : ℤ) = shift := Int.toNat_of_nonneg h
    rw [hdown, pow_zero, mul_one, ← zpow_natCast, hup, mul_div_right_comm]
  · have hup : shift.toNat = 0 := by omega
    have hdown : (((-shift).toNat : ℕ) : ℤ) = -shift := Int.toNat_of_nonneg (by omega)
    rw [hup, pow_zero, mul_one, ← zpow_natCast, hdown, zpow_neg, div_mul_eq_div_div, div_inv_eq_mul]

/-- An error of one half after scaling is one half of a unit before it. -/
theorem unscaled_error {x : ℚ} {shift : ℤ} {n : Nat} (h : |x * 10 ^ shift - n| ≤ 1 / 2) :
    |x - n * 10 ^ (-shift)| ≤ 1 / 2 * 10 ^ (-shift) := by
  have hunit : (0 : ℚ) < 10 ^ (-shift) := by positivity
  have hcancel : (10 : ℚ) ^ shift * 10 ^ (-shift) = 1 := by
    rw [← zpow_add₀ (by norm_num), add_neg_cancel, zpow_zero]
  have hx : x - n * 10 ^ (-shift) = (x * 10 ^ shift - n) * 10 ^ (-shift) := by
    rw [sub_mul, mul_assoc, hcancel, mul_one]
  rw [hx, abs_mul, abs_of_pos hunit]
  exact mul_le_mul_of_nonneg_right h hunit.le

section Leading

variable {places num den : Nat} (hplaces : 0 < places) (hnum : 0 < num) (hden : 0 < den)

include hplaces hnum hden

/-- The number scaled to its leading digits, and rounded: an integer with so many digits, or the
    first that has one more. -/
theorem scaled_bounds :
    let shift := (places : ℤ) - 1 - decade num den
    let n := nearest (num * 10 ^ shift.toNat) (den * 10 ^ (-shift).toNat)
    |(num : ℚ) / den * 10 ^ shift - n| ≤ 1 / 2 ∧ 10 ^ (places - 1) ≤ n ∧ n ≤ 10 ^ places := by
  intro shift n
  have herror : |(num : ℚ) / den * 10 ^ shift - n| ≤ 1 / 2 := by
    have hscaled := scaled_eq 10 num den shift
    rw [Nat.cast_ofNat] at hscaled
    rw [← hscaled]
    exact nearest_error _ (by positivity)
  obtain ⟨hlow, hhigh⟩ := decade_bounds hnum hden
  have hscale : (0 : ℚ) < 10 ^ shift := by positivity
  -- the shift takes the number to where integers have so many digits
  have hlow' : (10 : ℚ) ^ (places - 1) ≤ (num : ℚ) / den * 10 ^ shift := by
    have hpow : (10 : ℚ) ^ (places - 1) = 10 ^ decade num den * 10 ^ shift := by
      rw [← zpow_add₀ (by norm_num), ← zpow_natCast]
      congr 1
      omega
    rw [hpow]
    exact mul_le_mul_of_nonneg_right hlow hscale.le
  have hhigh' : (num : ℚ) / den * 10 ^ shift < 10 ^ places := by
    have hpow : (10 : ℚ) ^ places = 10 ^ (decade num den + 1) * 10 ^ shift := by
      rw [← zpow_add₀ (by norm_num), ← zpow_natCast]
      congr 1
      omega
    rw [hpow]
    exact mul_lt_mul_of_pos_right hhigh hscale
  obtain ⟨habove, hbelow⟩ := abs_sub_le_iff.1 herror
  refine ⟨herror, ?_, ?_⟩
  -- off by a half at most, and an integer: doubled, this is said without fractions
  · have hdouble : (2 * 10 ^ (places - 1) : ℚ) ≤ 2 * n + 1 := by linarith
    have : 2 * 10 ^ (places - 1) ≤ 2 * n + 1 := by exact_mod_cast hdouble
    omega
  · have hdouble : (2 * n : ℚ) < 2 * 10 ^ places + 1 := by linarith
    have : 2 * n < 2 * 10 ^ places + 1 := by exact_mod_cast hdouble
    omega

/-- What leading digits stand for is the rounded number, also where that has one digit more.  Then
    it is a power of ten, so that the digit that is cut off is a zero. -/
theorem exists_rounded :
    ∃ n : Nat,
      |(num : ℚ) / den - n * (10 : ℚ) ^ (decade num den + 1 - places)| ≤
        1 / 2 * (10 : ℚ) ^ (decade num den + 1 - places) ∧
      (significant places num den).value places = n * (10 : ℚ) ^ (decade num den + 1 - places) ∧
      10 ^ (places - 1) ≤ (significant places num den).digits ∧
      (significant places num den).digits < 10 ^ places := by
  obtain ⟨herror, hlow, hhigh⟩ := scaled_bounds hplaces hnum hden
  generalize hsignificant : significant places num den = s
  simp only [significant, Nat.pow_eq] at hsignificant
  generalize nearest _ _ = n at herror hlow hhigh hsignificant
  have herror' := unscaled_error herror
  have hunit : -((places : ℤ) - 1 - decade num den) = decade num den + 1 - places := by omega
  rw [hunit] at herror'
  refine ⟨n, herror', ?_⟩
  split at hsignificant
  · next hlt =>
    subst hsignificant
    exact ⟨rfl, hlow, hlt⟩
  · next hge =>
    -- rounding has carried into a new digit
    have hcarry : n = 10 ^ (places - 1) * 10 := by
      rw [← pow_succ, Nat.sub_one_add_one hplaces.ne']
      omega
    subst hsignificant
    rw [hcarry, Nat.mul_div_cancel _ (by decide)]
    refine ⟨?_, le_refl _, Nat.pow_lt_pow_right (by decide) (by omega)⟩
    have hshift : decade num den + 1 + 1 - (places : ℤ) = decade num den + 1 - places + 1 := by
      omega
    simp only [Significant.value]
    rw [hshift, zpow_add_one₀ (by norm_num)]
    push_cast
    ring

/-- Rounding to leading digits keeps their number. -/
theorem length_digits_significant :
    (Nat.toDigits 10 (significant places num den).digits).length = places := by
  obtain ⟨-, -, -, hlow, hhigh⟩ := exists_rounded hplaces hnum hden
  generalize (significant places num den).digits = n at hlow hhigh
  have hpos : 0 < n := lt_of_lt_of_le (by positivity) hlow
  have hle := (Nat.length_toDigits_le_iff (by decide) hplaces).2 hhigh
  have hlt := lt_of_le_of_lt hlow (digitCount_bounds hpos).2
  have hge : places - 1 < (Nat.toDigits 10 n).length := (Nat.pow_lt_pow_iff_right (by decide)).1 hlt
  omega

/-- **Leading digits are close** to the number they are of, compared with that number. -/
theorem significant_error :
    |(num : ℚ) / den - (significant places num den).value places| ≤
      (num : ℚ) / den / (2 * 10 ^ (places - 1)) := by
  obtain ⟨n, herror, hvalue, -, -⟩ := exists_rounded hplaces hnum hden
  rw [hvalue]
  refine le_trans herror ?_
  have hpow : (10 : ℚ) ^ decade num den =
      10 ^ (places - 1) * 10 ^ (decade num den + 1 - places) := by
    rw [← zpow_natCast, ← zpow_add₀ (by norm_num)]
    congr 1
    omega
  have hdecade := (decade_bounds hnum hden).1
  rw [hpow] at hdecade
  rw [le_div_iff₀ (by positivity)]
  linarith

end Leading

end SpanChart.Numeral
