/-
  ARITHMETIC — what binary64 makes of numbers that are not negative.

  What an operation has rounded is packed into bits, and there it stays the number that it is or,
  if its exponent is too large, becomes an infinity.  A value that is infinite stays so when more is
  added to it.  So a value may be followed as if there were no largest number at all: it is `Kept`
  of a number on the grid, and every operation is kept of one nearest to the exact result, as the
  operations on unpacked values say.  Only in the end it is asked whether the number is below the
  limit, and that is whether the value is finite (`Kept.isFinite_iff`).

  Nothing of this asks beforehand whether a sum overflows.  That is what makes it fit for long sums:
  a bound is needed for the result alone, and not for each of the sums on the way to it.
-/
import SpanChart.Proofs.Operations

namespace SpanChart.Numeral

open Float.Model (Format UnpackedFloat totalExponent)
open Float.Model.UnpackedFloat

/-! ## Bits -/

/-- A mantissa without leading bit is packed as it is, at the least exponent there is. -/
theorem unpack_pack_subnormal {m : ℕ} (hpos : 0 < m) (hm : m < 2 ^ 52) :
    unpack Format.binary64 (pack Format.binary64 (.finite .positive m (-1074) hpos)) =
      .finite .positive m (-1074) hpos := by
  -- the place of the leading bit is empty, and that decides for a field of zeros
  have hlog : m.log2 + 1 ≠ 53 := by
    have := (Nat.log2_lt hpos.ne').2 hm
    omega
  have hpack : pack Format.binary64 (.finite .positive m (-1074) hpos) =
      packComponents Format.binary64 .positive 0#11 (BitVec.ofNat 52 m) := by
    show (if m.log2 + 1 = 53 then _ else packComponents Format.binary64 .positive 0#11
      (BitVec.ofNat 52 m)) = _
    exact if_neg hlog
  have hmod : (BitVec.ofNat 52 m).toNat = m := by
    rw [BitVec.toNat_ofNat, Nat.mod_eq_of_lt hm]
  -- with a field of zeros it is the fraction that tells a number from zero
  have hnotzero : BitVec.ofNat 52 m ≠ 0#52 := by
    intro h
    have hnat := hmod.symm.trans (congrArg BitVec.toNat h)
    exact hpos.ne' hnat
  rw [hpack]
  simp only [unpack, unpackMantissa_packComponents, unpackExponent_packComponents,
    unpackSign_packed]
  rw [if_neg (by decide), if_pos trivial, dif_neg hnotzero]
  simp only [UnpackedFloat.finite.injEq]
  exact ⟨rfl, hmod, rfl⟩

/-- A number that is too large is packed as an infinity. -/
theorem unpack_pack_overflow {m : ℕ} {e : ℤ} (hpos : 0 < m) (he : 971 < e) :
    unpack Format.binary64 (pack Format.binary64 (.finite .positive m e hpos)) =
      .infinity .positive := by
  have hpack : pack Format.binary64 (.finite .positive m e hpos) =
      packedInfinity Format.binary64 .positive := by
    -- the field for such an exponent would be all ones or more, which is taken for infinities
    show (if 2048 ≤ (e + 1023 + 52).toNat + 1 then _ else _) = _
    exact if_pos (by omega)
  rw [hpack]
  rfl

/-- What is read off bits is a number in its one form, and its exponent has an upper limit. -/
theorem canonical_unpack {bits : BitVec 64} {s : Sign} {m : ℕ} {e : ℤ} {hpos : 0 < m}
    (h : unpack Format.binary64 bits = .finite s m e hpos) : Canonical m e ∧ e ≤ 971 := by
  have hbias : (Format.binary64.exponentBias : ℤ) = 1023 := rfl
  have hfield : (@unpackExponent Format.binary64 bits).toNat < 2048 :=
    (@unpackExponent Format.binary64 bits).isLt
  have hfraction : (@unpackMantissa Format.binary64 bits).toNat < 2 ^ 52 :=
    (@unpackMantissa Format.binary64 bits).isLt
  simp only [unpack, hbias] at h
  split at h
  -- a field of all ones is read as an infinity or as no number
  case isTrue hall => split at h <;> exact absurd h (by simp)
  case isFalse hnotall =>
    split at h
    case isTrue hnone =>
      split at h
      case isTrue => exact absurd h (by simp)
      case isFalse =>
        -- a field of zeros: the fraction alone, at the least exponent
        obtain ⟨-, rfl, rfl⟩ := UnpackedFloat.finite.inj h
        have hzero : (@unpackExponent Format.binary64 bits).toNat = 0 := congrArg BitVec.toNat hnone
        exact ⟨⟨by omega, by omega, Or.inl (by omega)⟩, by omega⟩
    case isFalse hnotnone =>
      -- any other field: the leading bit that is not stored comes before the fraction
      obtain ⟨-, rfl, rfl⟩ := UnpackedFloat.finite.inj h
      have hfrom : (@unpackExponent Format.binary64 bits).toNat ≠ 0 :=
        fun hzero => hnotnone (BitVec.eq_of_toNat_eq hzero)
      have hto : (@unpackExponent Format.binary64 bits).toNat ≠ 2047 :=
        fun hall => hnotall (BitVec.eq_of_toNat_eq hall)
      have hvalue : (1#1 ++ @unpackMantissa Format.binary64 bits).toNat =
          2 ^ 52 + (@unpackMantissa Format.binary64 bits).toNat := by
        rw [BitVec.toNat_append, ← Nat.shiftLeft_add_eq_or_of_lt (BitVec.isLt _)]
        rfl
      rw [hvalue]
      exact ⟨⟨by omega, by omega, Or.inr (by omega)⟩, by omega⟩

/-! ## Binary64 values -/

/-- What is less than this is not too large for binary64.  The largest number there is lies one unit
    of its last place below. -/
def limit : ℚ := 2 ^ (1024 : ℤ)

/-- Powers of two below the limit are the bounds that are used. -/
theorem lt_limit_of_le {q : ℚ} {e : ℤ} (h : q ≤ 2 ^ e) (he : e < 1024) : q < limit :=
  lt_of_le_of_lt h (zpow_lt_zpow_right₀ one_lt_two he)

theorem onGrid_limit : OnGrid limit := onGrid_two_zpow (by norm_num)

/-- A value is this number, or infinite if that is too large for binary64.  The number is on the
    grid in any case, as if the exponents went on. -/
structure Kept (x : Float) (q : ℚ) : Prop where
  onGrid : OnGrid q
  kept : Fits x.toModel.unpack q ∨ x.toModel.unpack = .infinity .positive ∧ limit ≤ q

/-- A finite value is below the limit. -/
theorem lt_of_fits_unpack {x : Float} {q : ℚ} (h : Fits x.toModel.unpack q) :
    q < limit := by
  generalize hu : x.toModel.unpack = u at h
  cases h with
  | zero s => exact two_zpow_pos _
  | @finite s m e hpos canonical =>
    -- a full mantissa at the largest exponent is still less than the next power of two
    have hle : e ≤ 971 := (canonical_unpack hu).2
    have hsize : size m e < limit :=
      lt_of_lt_of_le (size_lt canonical.lt e) (two_zpow_le (by push_cast; omega))
    cases s with
    | positive => exact hsize
    | negative => exact lt_trans (neg_neg_of_pos (size_pos hpos e)) (two_zpow_pos _)

/-- Every finite value is some number. -/
theorem exists_fits {x : Float} (h : x.isFinite = true) : ∃ q, Fits x.toModel.unpack q := by
  have hfinite : x.toModel.unpack.isFinite = true := h
  generalize hu : x.toModel.unpack = u at hfinite
  cases u with
  | notANumber => cases hfinite
  | infinity s => cases hfinite
  | zero s => exact ⟨0, .zero s⟩
  | finite s m e hpos => exact ⟨_, .finite s hpos (canonical_unpack hu).1⟩

/-- A value that is a number is finite. -/
theorem isFinite_of_fits {x : Float} {q : ℚ} (h : Fits x.toModel.unpack q) :
    x.isFinite = true := by
  show x.toModel.unpack.isFinite = true
  generalize x.toModel.unpack = u at h
  cases h <;> rfl

/-- What fits after rounding is kept in bits. -/
theorem kept_ofModel {u : UnpackedFloat} {q : ℚ} (h : Fits u q) (hq : 0 ≤ q) :
    Kept (Float.ofModel (.pack u)) q := by
  refine ⟨h.onGrid hq, ?_⟩
  show Fits (unpack Format.binary64 (pack Format.binary64 u)) q ∨
    unpack Format.binary64 (pack Format.binary64 u) = _ ∧ _
  rcases h.cases_of_nonneg hq with ⟨s, rfl, rfl⟩ | ⟨m, e, hpos, rfl, canonical, rfl⟩
  · left
    cases s <;> exact .zero _
  · rcases le_or_gt e 971 with hle | hgt
    · left
      -- what is packed is what is unpacked again, with a leading bit or without
      rcases canonical.full with rfl | hfull
      · rcases lt_or_ge m (2 ^ 52) with hlt | hge
        · rwa [unpack_pack_subnormal hpos hlt]
        · rwa [unpack_pack_normal ⟨hge, canonical.lt⟩ hpos canonical.least hle]
      · rwa [unpack_pack_normal ⟨hfull, canonical.lt⟩ hpos canonical.least hle]
    · right
      -- only the least exponent goes without a leading bit, so here the number is large
      have hfull : 2 ^ 52 ≤ m := canonical.full.resolve_left (by omega)
      refine ⟨unpack_pack_overflow hpos hgt, ?_⟩
      calc limit ≤ 2 ^ (e + (52 : ℕ)) := two_zpow_le (by push_cast; omega)
        _ = size (2 ^ 52) e := (size_two_pow 52 e).symm
        _ ≤ size m e := size_le_size_iff.2 hfull

/-- The difference of two finite values that are in order. -/
theorem kept_sub {x y : Float} {a b : ℚ} (hx : Fits x.toModel.unpack a)
    (hy : Fits y.toModel.unpack b) (hle : b ≤ a) : ∃ r, Nearest (a - b) r ∧ Kept (x - y) r := by
  obtain ⟨r, hr, hfits⟩ := hx.sub hy hle
  exact ⟨r, hr, kept_ofModel hfits hr.nonneg⟩

/-- Finite values that are in order are numbers that are. -/
theorem le_of_fits {x y : Float} {a b : ℚ} (hx : Fits x.toModel.unpack a)
    (hy : Fits y.toModel.unpack b) (hle : x ≤ y) : a ≤ b := by
  rw [Scalar.le_iff_compare?, Scalar.compare?, hx.compare_eq hy, Option.some.injEq,
    Option.some.injEq, compare_lt_iff_lt, compare_eq_iff_eq] at hle
  rcases hle with hlt | rfl
  · exact hlt.le
  · exact le_refl a

/-! ## What is kept of numbers

  Each operation comes as one lemma: there is a number nearest to the exact result, and the value
  is kept of it.  Sums need no bound at all; the others are taken of finite values only.
-/

namespace Kept

variable {x y : Float} {a b : ℚ}

theorem nonneg (h : Kept x a) : 0 ≤ a := h.onGrid.nonneg

theorem zero : Kept 0 0 := ⟨onGrid_zero, Or.inl (.zero .positive)⟩

/-- A number below the limit is kept as a finite value. -/
theorem fits (h : Kept x a) (ha : a < limit) : Fits x.toModel.unpack a :=
  h.kept.resolve_right fun hinf => absurd hinf.2 (not_le.2 ha)

/-- A number that is not below the limit is kept as an infinity. -/
theorem unpack_eq (h : Kept x a) (ha : limit ≤ a) :
    x.toModel.unpack = .infinity .positive :=
  (h.kept.resolve_left fun hfits => absurd (lt_of_fits_unpack hfits) (not_lt.2 ha)).1

/-- **A value is finite** exactly if it is kept of a number below the limit. -/
theorem isFinite_iff (h : Kept x a) : x.isFinite = true ↔ a < limit := by
  refine ⟨fun hfinite => ?_, fun ha => isFinite_of_fits (h.fits ha)⟩
  rcases h.kept with hfits | ⟨hinf, -⟩
  · exact lt_of_fits_unpack hfits
  · have hfinite : x.toModel.unpack.isFinite = true := hfinite
    rw [hinf] at hfinite
    cases hfinite

/-- A finite value is kept of one number only. -/
theorem unique (h : Kept x a) (h' : Kept x b) (ha : a < limit) : a = b := by
  have hb := h'.isFinite_iff.1 (h.isFinite_iff.2 ha)
  exact (h.fits ha).unique (h'.fits hb)

/-- An infinite value is kept of any number that is too large. -/
theorem of_infinite (hx : x.toModel.unpack = .infinity .positive) (ha : OnGrid a)
    (hlimit : limit ≤ a) : Kept x a :=
  ⟨ha, Or.inr ⟨hx, hlimit⟩⟩

/-- **Sums of values are nearest to sums of numbers**, beyond the limit as well. -/
theorem add (hx : Kept x a) (hy : Kept y b) : ∃ r, Nearest (a + b) r ∧ Kept (x + y) r := by
  have ha := hx.nonneg
  have hb := hy.nonneg
  by_cases hfinite : a < limit ∧ b < limit
  · obtain ⟨r, hr, hfits⟩ := (hx.fits hfinite.1).add (hy.fits hfinite.2) (add_nonneg ha hb)
    exact ⟨r, hr, kept_ofModel hfits hr.nonneg⟩
  · obtain ⟨r, hr⟩ := exists_nearest (add_nonneg ha hb)
    refine ⟨r, hr, of_infinite ?_ hr.onGrid (hr.ge onGrid_limit ?_)⟩
    -- one of the summands is infinite and neither is negative, so the sum is infinite too
    · show unpack _ (pack _ (UnpackedFloat.add _ x.toModel.unpack y.toModel.unpack)) = _
      have hsum : UnpackedFloat.add Format.binary64 x.toModel.unpack y.toModel.unpack =
          .infinity .positive := by
        rcases hx.kept with hfits | ⟨hinf, -⟩
        · rcases hy.kept with hfits' | ⟨hinf', -⟩
          · exact absurd ⟨lt_of_fits_unpack hfits, lt_of_fits_unpack hfits'⟩ hfinite
          · rw [hinf']
            rcases hfits.cases_of_nonneg ha with ⟨s, hu, -⟩ | ⟨m, e, hpos, hu, -⟩ <;>
              rw [hu] <;> rfl
        · rw [hinf]
          rcases hy.kept with hfits' | ⟨hinf', -⟩
          · rcases hfits'.cases_of_nonneg hb with ⟨s, hu, -⟩ | ⟨m, e, hpos, hu, -⟩ <;>
              rw [hu] <;> rfl
          · rw [hinf']
            rfl
      rw [hsum]
      rfl
    -- nor is the exact sum below the limit, or else both summands would be
    · by_contra hlt
      exact hfinite ⟨by linarith, by linarith⟩

/-- Finite values compare as their numbers do. -/
theorem lt_iff (hx : Kept x a) (hy : Kept y b) (ha : a < limit)
    (hb : b < limit) : x < y ↔ a < b := by
  rw [Scalar.lt_iff_compare?, Scalar.compare?, (hx.fits ha).compare_eq (hy.fits hb),
    Option.some.injEq, compare_lt_iff_lt]

/-- A finite value is less than one that is not. -/
theorem lt_of_limit_le (hx : Kept x a) (hy : Kept y b) (ha : a < limit) (hb : limit ≤ b) :
    x < y := by
  rw [Scalar.lt_iff_compare?, Scalar.compare?, hy.unpack_eq hb]
  rcases (hx.fits ha).cases_of_nonneg hx.nonneg with ⟨s, hu, -⟩ | ⟨m, e, hpos, hu, -⟩ <;>
    rw [hu] <;> rfl

/-- A value is positive if its number is, an infinite value too. -/
theorem pos_iff (h : Kept x a) : 0 < x ↔ 0 < a := by
  have hzero : 0 < limit := two_zpow_pos _
  rcases lt_or_ge a limit with ha | ha
  · exact zero.lt_iff h hzero ha
  · exact iff_of_true (zero.lt_of_limit_le h hzero ha) (lt_of_lt_of_le hzero ha)

/-- Values that are in order are numbers that are, if the larger one is finite. -/
theorem le_of_le (hx : Kept x a) (hy : Kept y b) (hb : b < limit) (hle : x ≤ y) : a ≤ b := by
  by_contra hlt
  -- if the numbers were the other way round, so would the values be
  refine Scalar.Ordered.not_lt_of_le hle ?_
  rcases lt_or_ge a limit with ha | ha
  · exact (hy.lt_iff hx hb ha).2 (not_le.1 hlt)
  · exact hy.lt_of_limit_le hx hb ha

/-- The larger of two values is the larger number. -/
theorem larger (hx : Kept x a) (hy : Kept y b) : Kept (Scalar.larger x y) (max a b) := by
  have hgrid : OnGrid (max a b) := by
    rcases max_choice a b with h | h <;> rw [h]
    · exact hx.onGrid
    · exact hy.onGrid
  rcases lt_or_ge a limit with ha | ha
  · rcases lt_or_ge b limit with hb | hb
    · by_cases hlt : a < b
      · rwa [Scalar.larger_of_lt ((hx.lt_iff hy ha hb).2 hlt), max_eq_right hlt.le]
      · rwa [Scalar.larger_of_not_lt (hlt ∘ (hx.lt_iff hy ha hb).1), max_eq_left (not_lt.1 hlt)]
    · rwa [Scalar.larger_of_lt (hx.lt_of_limit_le hy ha hb), max_eq_right (ha.le.trans hb)]
  -- nothing is larger than an infinite value, which is chosen by standing first
  · have hnot : ¬x < y := by
      rw [Scalar.lt_iff_compare?, Scalar.compare?, hx.unpack_eq ha]
      rcases hy.kept with hfits | ⟨hinf, -⟩
      · rcases hfits.cases_of_nonneg hy.nonneg with ⟨s, hu, -⟩ | ⟨m, e, hpos, hu, -⟩ <;>
          simp [hu, UnpackedFloat.compare]
      · simp [hinf, UnpackedFloat.compare]
    rw [Scalar.larger_of_not_lt hnot]
    exact of_infinite (hx.unpack_eq ha) hgrid (ha.trans (le_max_left a b))

/-- Numbers of halves are kept. -/
theorem of_halved (h : Halved x a) : Kept x a := by
  obtain ⟨k, hk, rfl, rfl⟩ := h
  rcases Nat.eq_zero_or_pos k with rfl | hpos
  · rw [Nat.cast_zero, zero_div]
    exact zero
  · have hlog := log2_le hk
    obtain ⟨hlow, hhigh⟩ := normal_shifted hpos hk
    -- the mantissa is shifted up until its leading bit is in the highest place
    have hsize : (k / 2 : ℚ) = size (k * 2 ^ (52 - k.log2)) (k.log2 - 53) := by
      have hunit : (k.log2 : ℤ) - 53 + (52 - k.log2 : ℕ) = -1 := by omega
      rw [size_mul_two_pow, hunit, size, zpow_neg_one]
      rfl
    have hcanonical : Canonical (k * 2 ^ (52 - k.log2)) (k.log2 - 53) :=
      ⟨hhigh, by omega, Or.inr hlow⟩
    rw [hsize]
    refine ⟨hcanonical.onGrid, Or.inl ?_⟩
    rw [unpack_ofHalves hk, halves_of_pos hpos]
    exact .finite .positive _ hcanonical

theorem one : Kept 1 1 := of_halved Halved.one

/-- A positive number is read off its bits. -/
theorem of_toBits {bits : UInt64} (h : x.toBits = bits) {m : ℕ} {e : ℤ} (hpos : 0 < m)
    (hbits : unpack Format.binary64 bits.toBitVec = .finite .positive m e hpos) :
    Kept x (size m e) := by
  subst h
  have hunpack : x.toModel.unpack = .finite .positive m e hpos := hbits
  have hcanonical := (canonical_unpack hbits).1
  refine ⟨hcanonical.onGrid, Or.inl ?_⟩
  rw [hunpack]
  exact .finite .positive hpos hcanonical

/-- Half of a finite value. -/
theorem half (hx : Kept x a) (ha : a < limit) :
    ∃ r, Nearest (a / 2) r ∧ Kept (Scalar.half x) r := by
  have htwo : Kept 2 2 := of_halved ⟨4, by norm_num, rfl, by norm_num⟩
  have hlimit : (2 : ℚ) < limit := lt_limit_of_le (e := 1) (by norm_num) (by norm_num)
  -- a half is what division by two rounds to, which is exact unless the last bit gets lost
  obtain ⟨r, hr, hfits⟩ := (hx.fits ha).div (htwo.fits hlimit) hx.nonneg two_pos
  exact ⟨r, hr, kept_ofModel hfits hr.nonneg⟩

/-- The product of finite values. -/
theorem mul (hx : Kept x a) (hy : Kept y b) (ha : a < limit)
    (hb : b < limit) : ∃ r, Nearest (a * b) r ∧ Kept (x * y) r := by
  obtain ⟨r, hr, hfits⟩ := (hx.fits ha).mul (hy.fits hb) hx.nonneg hy.nonneg
  exact ⟨r, hr, kept_ofModel hfits hr.nonneg⟩

/-- A product of values that are within powers of two. -/
theorem isFinite_mul (hx : Kept x a) (hy : Kept y b) {d e : ℤ} (ha : a ≤ 2 ^ d) (hb : b ≤ 2 ^ e)
    (hfinite : a < limit) (hfinite' : b < limit) (hlow : -1074 ≤ d + e) (hhigh : d + e < 1024) :
    (x * y).isFinite = true := by
  obtain ⟨r, hr, hkept⟩ := hx.mul hy hfinite hfinite'
  -- the bound is on the grid itself, so rounding does not go past it
  have hle : a * b ≤ 2 ^ (d + e) := by
    rw [zpow_add₀ two_ne_zero]
    exact mul_le_mul ha hb hy.nonneg (two_zpow_pos d).le
  exact hkept.isFinite_iff.2 (lt_limit_of_le (hr.le (onGrid_two_zpow hlow) hle) hhigh)

/-- The quotient of finite values. -/
theorem div (hx : Kept x a) (hy : Kept y b) (ha : a < limit)
    (hb : b < limit) (hpos : 0 < b) : ∃ r, Nearest (a / b) r ∧ Kept (x / y) r := by
  obtain ⟨r, hr, hfits⟩ := (hx.fits ha).div (hy.fits hb) hx.nonneg hpos
  exact ⟨r, hr, kept_ofModel hfits hr.nonneg⟩

/-- An infinite value goes into a finite one no time. -/
theorem exists_unpack_div (hx : Kept x a) (hy : Kept y b) (ha : a < limit) (hb : limit ≤ b) :
    ∃ s, (x / y).toModel.unpack = .zero s := by
  show ∃ s, unpack _ (pack _ (UnpackedFloat.div _ x.toModel.unpack y.toModel.unpack)) = .zero s
  -- zeros keep their sign, and nothing is rounded
  have hzero : ∀ s, unpack Format.binary64 (pack Format.binary64 (.zero s)) = .zero s :=
    fun s => by cases s <;> rfl
  rw [hy.unpack_eq hb]
  rcases (hx.fits ha).cases_of_nonneg hx.nonneg with ⟨s, hu, -⟩ | ⟨m, e, hpos, hu, -⟩
  · rw [hu]
    exact ⟨s / Sign.positive, hzero _⟩
  · rw [hu]
    exact ⟨Sign.positive / Sign.positive, hzero _⟩

end Kept

/-- A finite value times nothing is finite. -/
theorem isFinite_mul_of_zero {x y : Float} {s : Sign} (hx : x.isFinite = true)
    (hy : y.toModel.unpack = .zero s) : (x * y).isFinite = true := by
  have hx : x.toModel.unpack.isFinite = true := hx
  show (unpack _ (pack _ (UnpackedFloat.mul _ x.toModel.unpack y.toModel.unpack))).isFinite = true
  have hzero : ∀ s, (unpack Format.binary64 (pack Format.binary64 (.zero s))).isFinite = true :=
    fun s => by cases s <;> rfl
  rw [hy]
  generalize x.toModel.unpack = u at hx
  cases u with
  | notANumber => cases hx
  | infinity s' => cases hx
  | zero s' => exact hzero (s' * s)
  | finite s' m e hpos => exact hzero (s' * s)

/-- A product is finite only if both factors are. -/
theorem isFinite_of_isFinite_mul {x y : Float} (h : (x * y).isFinite = true) :
    x.isFinite = true ∧ y.isFinite = true := by
  have h : (unpack Format.binary64 (pack Format.binary64
      (UnpackedFloat.mul Format.binary64 x.toModel.unpack y.toModel.unpack))).isFinite = true := h
  show x.toModel.unpack.isFinite = true ∧ y.toModel.unpack.isFinite = true
  -- of every kind of factors the product is known; where it is finite, none is infinite or a NaN
  generalize x.toModel.unpack = u at h ⊢
  generalize y.toModel.unpack = w at h ⊢
  have hnan : (unpack Format.binary64 (pack Format.binary64 .notANumber)).isFinite = false := rfl
  have hinf : ∀ s, (unpack Format.binary64 (pack Format.binary64 (.infinity s))).isFinite = false :=
    fun s => by cases s <;> rfl
  cases u <;> cases w <;> simp_all [UnpackedFloat.mul, UnpackedFloat.isFinite]

end SpanChart.Numeral
