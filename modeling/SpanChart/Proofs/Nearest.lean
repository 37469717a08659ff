/-
  NEAREST — numbers of fifty-three bits, and what lies between them.

  Binary64 keeps numbers of fifty-three bits that are whole multiples of `2 ^ (-1074)`.  Here these
  are taken without a largest one (`OnGrid`), so that a number that is too large for binary64 is
  still the same number for the next operation.  Around a number that is not one of them they stand
  as far apart as the unit of that number (`UnitOf`), and rounding takes one that is no further off
  than half of it (`Nearest`).  Nothing else about rounding is used, not even which way ties go.

  1. Rounding does not go past what is on the grid (`Nearest.le`, `Nearest.ge`), so that it keeps
     the order.
  2. How much a sum gains by rounding: no more than the smaller of the two numbers that were added
     (`Nearest.le_add_min`).
  3. Sums of many numbers.  Where a sum has got to `2 ^ (u + 52)`, its unit is `2 ^ u`, and what is
     added counts in whole units: a number that is nearer to `n` of them than to any more moves it
     on by no more than `n` (`Nearest.le_steps`), and one that is less than half a unit does not
     move it at all.  A much smaller sum that the same number is added to grows by a quarter of
     these `n` units at least (`Nearest.steps_le`), so that what the large sum gains altogether is
     bounded by what the small one comes to.  That is what keeps an unlimited number of roundings
     from running away.
-/
import Mathlib
import SpanChart.Proofs.Faithful

namespace SpanChart.Numeral

/-! ## The grid -/

/-- A number of at most fifty-three bits and no smaller unit than there is. -/
def OnGrid (q : ℚ) : Prop := ∃ m e, m < 2 ^ 53 ∧ -1074 ≤ e ∧ q = size m e

/-- The unit of a number: the numbers on the grid next to it are `2 ^ t` apart. -/
structure UnitOf (v : ℚ) (t : ℤ) : Prop where
  least : -1074 ≤ t
  above : t = -1074 ∨ 2 ^ (t + 52) ≤ v
  below : v < 2 ^ (t + 53)

/-- One of the numbers on the grid that are next to a number, and no further off than half a
    unit. -/
def Nearest (v r : ℚ) : Prop := ∃ t, UnitOf v t ∧ ∃ n : ℕ, r = size n t ∧ |v - r| ≤ 2 ^ t / 2

theorem two_zpow_pos (t : ℤ) : (0 : ℚ) < 2 ^ t := by positivity

theorem two_zpow_le {s t : ℤ} (h : s ≤ t) : (2 : ℚ) ^ s ≤ 2 ^ t :=
  zpow_le_zpow_right₀ one_le_two h

theorem lt_of_two_zpow_lt {s t : ℤ} (h : (2 : ℚ) ^ s < 2 ^ t) : s < t :=
  (zpow_lt_zpow_iff_right₀ one_lt_two).1 h

theorem size_nonneg (m : ℕ) (e : ℤ) : 0 ≤ size m e :=
  mul_nonneg (Nat.cast_nonneg m) (two_zpow_pos e).le

/-- Twos may be in the mantissa or in the exponent. -/
theorem size_mul_two_pow (m k : ℕ) (t : ℤ) : size (m * 2 ^ k) t = size m (t + k) := by
  rw [size, size, zpow_add₀ two_ne_zero, zpow_natCast]
  push_cast
  ring

theorem size_two_pow (k : ℕ) (t : ℤ) : size (2 ^ k) t = 2 ^ (t + k) := by
  rw [← one_mul (2 ^ k), size_mul_two_pow, size, Nat.cast_one, one_mul]

theorem size_lt {m k : ℕ} (h : m < 2 ^ k) (e : ℤ) : size m e < 2 ^ (e + k) := by
  rw [← size_two_pow]
  exact mul_lt_mul_of_pos_right (Nat.cast_lt.2 h) (two_zpow_pos e)

/-- A number of some unit is a number of any smaller one. -/
theorem exists_size_eq (m : ℕ) {e t : ℤ} (h : t ≤ e) : ∃ k : ℕ, size m e = size k t := by
  refine ⟨m * 2 ^ (e - t).toNat, ?_⟩
  rw [size_mul_two_pow, Int.toNat_of_nonneg (by omega), add_sub_cancel]

theorem size_le_size_iff {m n : ℕ} {t : ℤ} : size m t ≤ size n t ↔ m ≤ n := by
  rw [size, size, mul_le_mul_iff_of_pos_right (two_zpow_pos t), Nat.cast_le]

theorem size_succ (n : ℕ) (t : ℤ) : size (n + 1) t = size n t + 2 ^ t := by
  rw [size, size, Nat.cast_succ, add_one_mul]

/-- Numbers of one unit that are less than that unit apart do not pass each other. -/
theorem size_le_of_lt_add {m n : ℕ} {t : ℤ} (h : size m t < size n t + 2 ^ t) :
    size m t ≤ size n t := by
  rw [← size_succ] at h
  rw [size_le_size_iff]
  by_contra hlt
  exact absurd (size_le_size_iff.2 (not_le.1 hlt)) (not_le.2 h)

theorem onGrid_size {m : ℕ} {e : ℤ} (hm : m < 2 ^ 53) (he : -1074 ≤ e) : OnGrid (size m e) :=
  ⟨m, e, hm, he, rfl⟩

theorem onGrid_two_zpow {e : ℤ} (he : -1074 ≤ e) : OnGrid (2 ^ e) :=
  ⟨1, e, by norm_num, he, by rw [size, Nat.cast_one, one_mul]⟩

theorem OnGrid.nonneg {q : ℚ} (h : OnGrid q) : 0 ≤ q := by
  obtain ⟨m, e, -, -, rfl⟩ := h
  exact size_nonneg m e

/-! ## Units -/

namespace UnitOf

variable {v : ℚ} {t u : ℤ}

/-- The unit of a number is the one that its size says. -/
theorem eq_of_mem (h : UnitOf v t) (hu : -1074 ≤ u) (hlow : 2 ^ (u + 52) ≤ v)
    (hhigh : v < 2 ^ (u + 53)) : t = u := by
  have hle : u + 52 < t + 53 := lt_of_two_zpow_lt (lt_of_le_of_lt hlow h.below)
  have := h.least
  rcases h.above with hleast | habove
  · omega
  · have : t + 52 < u + 53 := lt_of_two_zpow_lt (lt_of_le_of_lt habove hhigh)
    omega

/-- What is on the grid above a number is a number of its units. -/
theorem exists_of_le (h : UnitOf v t) {b : ℚ} (hb : OnGrid b) (hle : v ≤ b) :
    ∃ k : ℕ, b = size k t := by
  obtain ⟨m, e, hm, he, rfl⟩ := hb
  refine exists_size_eq m ?_
  rcases h.above with hleast | habove
  · omega
  · have hlt : (2 : ℚ) ^ (t + 52) < 2 ^ (e + (53 : ℕ)) :=
      lt_of_le_of_lt (habove.trans hle) (size_lt hm e)
    have := lt_of_two_zpow_lt hlt
    omega

/-- What is on the grid below a number is a number of its units, or below all numbers of that
    unit and by half of it at least. -/
theorem exists_or_of_ge (h : UnitOf v t) {b : ℚ} (hb : OnGrid b) :
    (∃ k : ℕ, b = size k t) ∨ b + 2 ^ t / 2 ≤ 2 ^ (t + 52) ∧ 2 ^ (t + 52) ≤ v := by
  obtain ⟨m, e, hm, he, rfl⟩ := hb
  rcases le_or_gt t e with hte | het
  · exact Or.inl (exists_size_eq m hte)
  · have habove : 2 ^ (t + 52) ≤ v := h.above.resolve_left (by omega)
    refine Or.inr ⟨?_, habove⟩
    -- with a unit half as large or smaller, one more is the most there can be
    have hunit : (2 : ℚ) ^ t / 2 = 2 ^ (t - 1) := by
      rw [zpow_sub_one₀ two_ne_zero, div_eq_mul_inv]
    have hsucc : (m : ℚ) + 1 ≤ 2 ^ 53 := by exact_mod_cast hm
    have hpow : (2 : ℚ) ^ (t + 52) = 2 ^ 53 * 2 ^ (t - 1) := by
      rw [← zpow_natCast, ← zpow_add₀ two_ne_zero]
      congr 1
      push_cast
      ring
    have hle : (2 : ℚ) ^ e ≤ 2 ^ (t - 1) := two_zpow_le (by omega)
    rw [hunit, hpow, size]
    calc (m : ℚ) * 2 ^ e + 2 ^ (t - 1) ≤ m * 2 ^ (t - 1) + 2 ^ (t - 1) := by gcongr
      _ = (m + 1) * 2 ^ (t - 1) := (add_one_mul _ _).symm
      _ ≤ 2 ^ 53 * 2 ^ (t - 1) := by gcongr

end UnitOf

/-- Every number has a unit. -/
theorem exists_unitOf (v : ℚ) : ∃ t, UnitOf v t := by
  rcases lt_or_ge v (2 ^ (-1021 : ℤ)) with hsmall | hlarge
  · exact ⟨-1074, le_refl _, Or.inl rfl, hsmall⟩
  · have hpos : 0 < v := lt_of_lt_of_le (two_zpow_pos _) hlarge
    have hlow : (2 : ℚ) ^ Int.log 2 v ≤ v := by exact_mod_cast Int.zpow_log_le_self one_lt_two hpos
    have hhigh : v < 2 ^ (Int.log 2 v + 1) := by
      exact_mod_cast Int.lt_zpow_succ_log_self one_lt_two v
    have hlog : -1021 < Int.log 2 v + 1 := lt_of_two_zpow_lt (lt_of_le_of_lt hlarge hhigh)
    refine ⟨Int.log 2 v - 52, by omega, Or.inr ?_, ?_⟩
    · rwa [sub_add_cancel]
    · rwa [sub_add_eq_add_sub, add_sub_assoc]

/-- The number of units that a number is nearest to. -/
theorem exists_count {v : ℚ} (hv : 0 ≤ v) (t : ℤ) :
    ∃ n : ℕ, (n - 1 / 2 : ℚ) * 2 ^ t ≤ v ∧ v < (n + 1 / 2) * 2 ^ t := by
  have hpos := two_zpow_pos t
  have hscaled : 0 ≤ v / 2 ^ t + 1 / 2 := by positivity
  refine ⟨⌊v / 2 ^ t + 1 / 2⌋₊, ?_, ?_⟩
  · have hfloor := Nat.floor_le hscaled
    rw [← le_div_iff₀ hpos]
    linarith
  · have hnext := Nat.lt_floor_add_one (v / 2 ^ t + 1 / 2)
    rw [← div_lt_iff₀ hpos]
    linarith

/-- Every number that is not negative can be rounded. -/
theorem exists_nearest {v : ℚ} (hv : 0 ≤ v) : ∃ r, Nearest v r := by
  obtain ⟨t, ht⟩ := exists_unitOf v
  obtain ⟨n, hlow, hhigh⟩ := exists_count hv t
  refine ⟨size n t, t, ht, n, rfl, ?_⟩
  rw [size, abs_sub_le_iff]
  constructor
  · linarith
  · linarith

/-! ## Rounding -/

/-- What is on the grid need not be rounded. -/
theorem OnGrid.nearest {q : ℚ} (h : OnGrid q) : Nearest q q := by
  obtain ⟨t, ht⟩ := exists_unitOf q
  obtain ⟨k, hk⟩ := ht.exists_of_le h (le_refl q)
  refine ⟨t, ht, k, hk, ?_⟩
  rw [sub_self, abs_zero]
  exact div_nonneg (two_zpow_pos t).le two_pos.le

namespace Nearest

variable {v r : ℚ} (h : Nearest v r)

include h

theorem nonneg : 0 ≤ r := by
  obtain ⟨t, -, n, rfl, -⟩ := h
  exact size_nonneg n t

/-- **Rounding does not go up past the grid.** -/
theorem le {b : ℚ} (hb : OnGrid b) (hle : v ≤ b) : r ≤ b := by
  obtain ⟨t, ht, n, rfl, hnear⟩ := h
  obtain ⟨k, rfl⟩ := ht.exists_of_le hb hle
  have hpos := two_zpow_pos t
  have hfar := (abs_sub_le_iff.1 hnear).2
  exact size_le_of_lt_add (by linarith)

/-- **Rounding does not go down past the grid.** -/
theorem ge {b : ℚ} (hb : OnGrid b) (hle : b ≤ v) : b ≤ r := by
  obtain ⟨t, ht, n, rfl, hnear⟩ := h
  have hpos := two_zpow_pos t
  have hfar := (abs_sub_le_iff.1 hnear).1
  -- a number of units is not passed, and the others are below one that is not passed either
  have hunits : ∀ k : ℕ, size k t ≤ v → size k t ≤ size n t :=
    fun k hk => size_le_of_lt_add (by linarith)
  rcases ht.exists_or_of_ge hb with ⟨k, rfl⟩ | ⟨hbelow, habove⟩
  · exact hunits k hle
  · have hpow := size_two_pow 52 t
    have hle' := hunits (2 ^ 52) (by rw [hpow]; exact habove)
    rw [hpow, Nat.cast_ofNat] at hle'
    linarith

/-- What rounding takes is on the grid. -/
theorem onGrid : OnGrid r := by
  obtain ⟨t, ht, n, rfl, hnear⟩ := h
  have hpos := two_zpow_pos t
  have hfar := (abs_sub_le_iff.1 hnear).2
  have hbelow : v < size (2 ^ 53) t := by
    rw [size_two_pow]
    exact ht.below
  have hn : n ≤ 2 ^ 53 := size_le_size_iff.1 (size_le_of_lt_add (t := t) (by linarith))
  rcases Nat.lt_or_eq_of_le hn with hn | rfl
  · exact onGrid_size hn ht.least
  · have := ht.least
    rw [size_two_pow]
    exact onGrid_two_zpow (by omega)

end Nearest

/-! ## Sums -/

namespace Nearest

variable {a b r : ℚ}

/-- **What a sum gains by rounding** is at most the smaller of the two numbers. -/
theorem le_add_min (h : Nearest (a + b) r) (ha : OnGrid a) (hb : OnGrid b) :
    r ≤ a + b + min a b := by
  wlog hle : b ≤ a generalizing a b
  · rw [add_comm a b, min_comm]
    exact this (by rwa [add_comm]) hb ha (le_of_not_ge hle)
  rw [min_eq_right hle]
  obtain ⟨t, ht, n, rfl, hnear⟩ := h
  have hfar := (abs_sub_le_iff.1 hnear).2
  have hnonneg := hb.nonneg
  rcases le_or_gt (2 ^ t / 2) b with hlarge | hsmall
  · linarith
  · -- less than half a unit is not enough to leave the larger number, which is one of units
    rcases ht.exists_or_of_ge ha with ⟨k, rfl⟩ | ⟨hbelow, habove⟩
    · have hn : size n t ≤ size k t := size_le_of_lt_add (by linarith)
      linarith
    · linarith

section Steps

variable {c w : ℚ} {u : ℤ} {k n : ℕ}

/-- **The step of a large sum**: it moves on by the number of units nearest to what is added. -/
theorem le_steps (h : Nearest (c + w) r) (hu : -1074 ≤ u) (hc : c ≤ size (2 ^ 52 + k) u)
    (hw : w < (n + 1 / 2) * 2 ^ u) (hroom : k + n + 1 ≤ 2 ^ 52) :
    r ≤ size (2 ^ 52 + k + n) u := by
  have hpos := two_zpow_pos u
  have hsum : size (2 ^ 52 + k + n) u = size (2 ^ 52 + k) u + n * 2 ^ u := by
    simp only [size]
    push_cast
    ring
  -- a sum that is not past the bound is not rounded past it, as the bound is on the grid
  rcases le_or_gt (c + w) (size (2 ^ 52 + k + n) u) with hle | hgt
  · exact h.le (onGrid_size (by omega) hu) hle
  · -- the sum is where the unit is `2 ^ u`
    have hlow : 2 ^ (u + 52) ≤ c + w := by
      have hbase : size (2 ^ 52) u ≤ size (2 ^ 52 + k + n) u := size_le_size_iff.2 (by omega)
      rw [size_two_pow] at hbase
      exact hbase.trans hgt.le
    have hhigh : c + w < 2 ^ (u + 53) := by
      have hnext : size (2 ^ 52 + k + n + 1) u ≤ size (2 ^ 53) u := size_le_size_iff.2 (by omega)
      rw [size_succ, size_two_pow, Nat.cast_ofNat] at hnext
      linarith
    obtain ⟨t, ht, m, rfl, hnear⟩ := h
    obtain rfl : t = u := ht.eq_of_mem hu hlow hhigh
    have hfar := (abs_sub_le_iff.1 hnear).2
    exact size_le_of_lt_add (by linarith)

/-- **The step of a small sum**: by a quarter of these units at least. -/
theorem steps_le (h : Nearest (a + w) r) (ha : OnGrid a) (hw : 0 ≤ w) (hu : -1074 < u)
    (hr : r ≤ 2 ^ (u + 37)) (hn : (n - 1 / 2 : ℚ) * 2 ^ u ≤ w) : n * 2 ^ u ≤ 4 * (r - a) := by
  have hpos := two_zpow_pos u
  have hgrow : a ≤ r := h.ge ha (le_add_of_nonneg_right hw)
  rcases Nat.eq_zero_or_pos n with rfl | hn'
  · rw [Nat.cast_zero, zero_mul]
    linarith
  · have hone : (1 : ℚ) ≤ n := by exact_mod_cast hn'
    have htwice : (n : ℚ) * 2 ^ u ≤ 2 * w := by nlinarith only [hone, hn, hpos]
    have hhalf : (2 : ℚ) ^ u / 2 ≤ w := by nlinarith only [hone, hn, hpos]
    -- the unit of the small sum is half of the other one at most
    obtain ⟨t, ht, -, -, hnear⟩ := id h
    have hunit : (2 : ℚ) ^ t ≤ 2 ^ u / 2 := by
      have htu : t ≤ u - 1 := by
        rcases ht.above with hleast | habove
        · omega
        · have hle : (2 : ℚ) ^ (t + 52) ≤ 2 ^ (u + 37) :=
            le_trans (h.ge (onGrid_two_zpow (by have := ht.least; omega)) habove) hr
          have := (zpow_le_zpow_iff_right₀ one_lt_two).1 hle
          omega
      calc (2 : ℚ) ^ t ≤ 2 ^ (u - 1) := two_zpow_le htu
        _ = 2 ^ u / 2 := by rw [zpow_sub_one₀ two_ne_zero, div_eq_mul_inv]
    have hfar := (abs_sub_le_iff.1 hnear).1
    linarith

end Steps

end Nearest

end SpanChart.Numeral
