/-
  FAITHFUL — with seventeen digits no two numbers are written alike.

  A binary64 number has a mantissa of fifty-three bits, unless its exponent is the least there is
  (`Canonical`).  Where one number is below another, its exponent is no greater
  (`Canonical.exponent_le`), so that both are whole multiples of its unit and lie at least that unit
  apart.  Rounding to seventeen digits moves a number by at most one part in `2 · 10 ^ 16`, and
  `10 ^ 16` is more than `2 ^ 53`: two numbers with the same digits are too near to be two
  (`Canonical.eq_of_near`).

  The digits are in the text (`reading_generalChars_finite`), its sign and what is infinite too, and
  these are all that a binary64 value has, unless it is a NaN (`ofBits_injective`).
-/
import SpanChart.Proofs.Notation

namespace SpanChart.Numeral

/-! ## Numbers of binary64 -/

/-- Mantissa and exponent of a binary64 number: the mantissa is as long as it can be, unless the
    exponent is the least. -/
structure Canonical (mantissa : Nat) (exponent : ℤ) : Prop where
  lt : mantissa < 2 ^ 53
  least : -1074 ≤ exponent
  full : exponent = -1074 ∨ 2 ^ 52 ≤ mantissa

/-- The size of the number with this mantissa and this exponent. -/
def size (mantissa : Nat) (exponent : ℤ) : ℚ := mantissa * 2 ^ exponent

namespace Canonical

variable {m m' : Nat} {q q' : ℤ}

/-- **A number that is not above another has no greater exponent.** -/
theorem exponent_le (hv : Canonical m q) (hw : Canonical m' q') (h : size m q ≤ size m' q') :
    q ≤ q' := by
  by_contra hlt
  rw [not_le] at hlt
  -- the exponent is above another, so it is not the least one and the mantissa has all its bits
  have hfull : 2 ^ 52 ≤ m := by
    rcases hv.full with hleast | hfull
    · have := hw.least
      omega
    · exact hfull
  have hm : (2 : ℚ) ^ 52 ≤ m := by exact_mod_cast hfull
  have hm' : (m' : ℚ) < 2 ^ 53 := by exact_mod_cast hw.lt
  have hunit : (2 : ℚ) ^ (q' + 1) ≤ 2 ^ q := zpow_le_zpow_right₀ (by norm_num) hlt
  have hpos : (0 : ℚ) < 2 ^ q' := by positivity
  have hbelow : size m' q' < size m q := by
    calc (m' : ℚ) * 2 ^ q'
        < 2 ^ 53 * 2 ^ q' := mul_lt_mul_of_pos_right hm' hpos
      _ = 2 ^ 52 * 2 ^ (q' + 1) := by
          rw [zpow_add_one₀ (by norm_num)]
          ring
      _ ≤ m * 2 ^ q := mul_le_mul hm hunit (by positivity) (Nat.cast_nonneg m)
  exact absurd h (not_le.2 hbelow)

/-- Numbers of the same size are the same. -/
theorem eq_of_size_eq (hv : Canonical m q) (hw : Canonical m' q') (h : size m q = size m' q') :
    m = m' ∧ q = q' := by
  have hexponent : q = q' := le_antisymm (hv.exponent_le hw h.le) (hw.exponent_le hv h.ge)
  subst hexponent
  have hpos : (2 : ℚ) ^ q ≠ 0 := by positivity
  have hmantissa : (m : ℚ) = m' := mul_right_cancel₀ hpos h
  exact ⟨Nat.cast_injective hmantissa, rfl⟩

/-- **Between a number and a greater one lies a whole unit** of the smaller one. -/
theorem unit_le_sub (hv : Canonical m q) (hw : Canonical m' q') (h : size m q < size m' q') :
    2 ^ q ≤ size m' q' - size m q := by
  have hle := hv.exponent_le hw h.le
  have hpos : (0 : ℚ) < 2 ^ q := by positivity
  have hmultiple : size m' q' = (m' * 2 ^ (q' - q).toNat : ℕ) * 2 ^ q := by
    have hcast : (((q' - q).toNat : ℕ) : ℤ) = q' - q := Int.toNat_of_nonneg (by omega)
    push_cast
    rw [mul_assoc, ← zpow_natCast, hcast, ← zpow_add₀ (by norm_num), sub_add_cancel, size]
  rw [hmultiple] at h ⊢
  generalize m' * 2 ^ (q' - q).toNat = n at h ⊢
  have hlt : m < n := by exact_mod_cast lt_of_mul_lt_mul_right h hpos.le
  have hstep : (m : ℚ) + 1 ≤ n := by exact_mod_cast hlt
  have hscaled := mul_le_mul_of_nonneg_right hstep hpos.le
  simp only [size]
  linarith

/-- Two numbers that are not the same are further apart than one part in `10 ^ 16` of their mean. -/
theorem lt_sub_of_lt (hv : Canonical m q) (hw : Canonical m' q') (h : size m q < size m' q') :
    (size m q + size m' q') / (2 * 10 ^ 16) < size m' q' - size m q := by
  have hunit := hv.unit_le_sub hw h
  have hm : (m : ℚ) < 2 ^ 53 := by exact_mod_cast hv.lt
  have hpos : (0 : ℚ) < 2 ^ q := by positivity
  have hsize : size m q < 2 ^ 53 * 2 ^ q := mul_lt_mul_of_pos_right hm hpos
  rw [div_lt_iff₀ (by norm_num)]
  linarith

/-- **Numbers that are too near are the same.** -/
theorem eq_of_near (hv : Canonical m q) (hw : Canonical m' q')
    (h : |size m q - size m' q'| ≤ (size m q + size m' q') / (2 * 10 ^ 16)) :
    m = m' ∧ q = q' := by
  rcases lt_trichotomy (size m q) (size m' q') with hlt | heq | hgt
  · have hfar := hv.lt_sub_of_lt hw hlt
    rw [abs_sub_comm, abs_of_pos (sub_pos.2 hlt)] at h
    linarith
  · exact hv.eq_of_size_eq hw heq
  · have hfar := hw.lt_sub_of_lt hv hgt
    rw [abs_of_pos (sub_pos.2 hgt)] at h
    linarith

end Canonical

/-! ## Rounding them -/

/-- Rounding is as good for a mantissa and an exponent as for a fraction. -/
theorem rounded_error {places : Nat} (hplaces : 0 < places) (m : Nat) (q : ℤ) :
    |size m q - rounded places m q| ≤ size m q / (2 * 10 ^ (places - 1)) := by
  unfold rounded
  split
  · next hzero => simp [hzero, size]
  · next hne =>
    have hscaled := scaled_eq 2 m 1 q
    rw [one_mul, Nat.cast_one, div_one, Nat.cast_ofNat] at hscaled
    have hnum : 0 < m * 2 ^ q.toNat := by positivity
    have hden : 0 < 2 ^ (-q).toNat := by positivity
    have herror := significant_error hplaces hnum hden
    rwa [hscaled] at herror

/-- **Seventeen digits are enough.** -/
theorem Canonical.eq_of_rounded_eq {m m' : Nat} {q q' : ℤ} (hv : Canonical m q)
    (hw : Canonical m' q') (h : rounded faithful m q = rounded faithful m' q') :
    m = m' ∧ q = q' := by
  have hplaces : 0 < faithful := by decide
  have hleft := abs_sub_le_iff.1 (rounded_error hplaces m q)
  have hright := abs_sub_le_iff.1 (rounded_error hplaces m' q')
  rw [h] at hleft
  have hnear : |size m q - size m' q'| ≤
      size m q / (2 * 10 ^ (faithful - 1)) + size m' q' / (2 * 10 ^ (faithful - 1)) := by
    rw [abs_sub_le_iff]
    constructor
    · linarith [hleft.1, hright.2]
    · linarith [hleft.2, hright.1]
  apply hv.eq_of_near hw
  rwa [← add_div] at hnear

/-! ## What binary64 keeps -/

namespace Binary

/-- What a binary64 value that is no NaN stands for. -/
def Proper : Binary → Prop
  | nan => False
  | infinite _ => True
  | finite _ mantissa exponent => Canonical mantissa exponent

/-- A value is put together of its sign, its exponent field and its fraction. -/
theorem toNat_bits (bits : UInt64) :
    bits.toNat =
        (bits.toNat / hiddenBit / 2048 * 2048 + bits.toNat / hiddenBit % 2048) * hiddenBit +
          bits.toNat % hiddenBit ∧
      bits.toNat / hiddenBit / 2048 < 2 ∧ bits.toNat % hiddenBit < hiddenBit := by
  have := bits.toNat_lt
  unfold hiddenBit
  omega

theorem proper_ofBits {bits : UInt64} (h : ofBits bits ≠ nan) : (ofBits bits).Proper := by
  obtain ⟨-, -, hfraction⟩ := toNat_bits bits
  have hfield : bits.toNat / hiddenBit % 2048 < 2048 := Nat.mod_lt _ (by decide)
  simp only [ofBits] at h ⊢
  generalize bits.toNat / hiddenBit % 2048 = field at h hfield ⊢
  generalize bits.toNat % hiddenBit = fraction at h hfraction ⊢
  unfold hiddenBit at hfraction
  split at h
  · next hall =>
    split at h
    · next hzero =>
      rw [if_pos hall, if_pos hzero]
      trivial
    · exact absurd rfl h
  · next hnotall =>
    rw [if_neg hnotall]
    split
    · exact ⟨by omega, le_refl _, Or.inl rfl⟩
    · unfold hiddenBit
      exact ⟨by omega, by omega, Or.inr (by omega)⟩

/-- The sign is one bit. -/
theorem eq_of_beq_one_eq {s t : Nat} (hs : s < 2) (ht : t < 2) (h : (s == 1) = (t == 1)) :
    s = t := by
  rw [Bool.eq_iff_iff, beq_iff_eq, beq_iff_eq] at h
  omega

/-- **The fields of a value are all there is to it**, if it is not a NaN. -/
theorem ofBits_injective {a b : UInt64} (hnan : ofBits a ≠ nan) (h : ofBits a = ofBits b) :
    a = b := by
  obtain ⟨ha, hsign, hfraction⟩ := toNat_bits a
  obtain ⟨hb, hsign', hfraction'⟩ := toNat_bits b
  rw [← UInt64.toNat_inj, ha, hb]
  simp only [ofBits] at h hnan
  -- fields are compared as three numbers each, whatever bits they come from
  generalize a.toNat / hiddenBit / 2048 = s at *
  generalize b.toNat / hiddenBit / 2048 = s' at *
  generalize a.toNat / hiddenBit % 2048 = f at *
  generalize b.toNat / hiddenBit % 2048 = f' at *
  generalize a.toNat % hiddenBit = r at *
  generalize b.toNat % hiddenBit = r' at *
  have hbits : (s == 1) = (s' == 1) ∧ f = f' ∧ r = r' := by
    grind
  obtain ⟨hnegative, rfl, rfl⟩ := hbits
  rw [eq_of_beq_one_eq hsign hsign' hnegative]

/-- What is read as a NaN has the exponent field of one and a fraction. -/
theorem fields_of_ofBits_eq_nan {bits : UInt64} (h : ofBits bits = nan) :
    bits.toNat / hiddenBit % 2048 = 2047 ∧ bits.toNat % hiddenBit ≠ 0 := by
  simp only [ofBits] at h
  split at h
  · next hall =>
    split at h
    · contradiction
    · next hfraction => exact ⟨hall, hfraction⟩
  · split at h
    · contradiction
    · contradiction

open Float.Model UnpackedFloat in
/-- Only a NaN is read as a NaN. -/
theorem isNaN_of_ofFloat {x : Float} (h : ofFloat x = nan) : x.isNaN = true := by
  obtain ⟨hfield, hfraction⟩ := fields_of_ofBits_eq_nan h
  have hexponent : @unpackExponent Format.binary64 x.toModel.toBits.toBitVec = -1#_ := by
    apply BitVec.eq_of_toNat_eq
    unfold unpackExponent
    rw [BitVec.toNat_cast, BitVec.extractLsb_toNat, Nat.shiftRight_eq_div_pow]
    exact hfield
  have hmantissa : @unpackMantissa Format.binary64 x.toModel.toBits.toBitVec ≠ 0#_ := by
    intro hzero
    have hnat := congrArg BitVec.toNat hzero
    unfold unpackMantissa at hnat
    rw [BitVec.toNat_cast, BitVec.extractLsb_toNat, Nat.shiftRight_zero] at hnat
    exact hfraction hnat
  show (UnpackedFloat.unpack Format.binary64 x.toModel.toBits.toBitVec).isNaN = true
  simp only [UnpackedFloat.unpack]
  rw [if_pos hexponent, if_neg hmantissa]
  rfl

variable {x y : Float} (hx : x.isNaN = false)

include hx

theorem ofFloat_ne_nan : ofFloat x ≠ nan := by
  intro h
  rw [isNaN_of_ofFloat h] at hx
  contradiction

theorem proper_ofFloat : (ofFloat x).Proper := proper_ofBits (ofFloat_ne_nan hx)

/-- What a number stands for is all there is to it. -/
theorem ofFloat_injective (h : ofFloat x = ofFloat y) : x = y := by
  have hbits : x.toBits = y.toBits := ofBits_injective (ofFloat_ne_nan hx) h
  obtain ⟨⟨bits, hvalid⟩⟩ := x
  obtain ⟨⟨bits', hvalid'⟩⟩ := y
  have hsame : bits = bits' := hbits
  subst hsame
  rfl

end Binary

/-! ## Texts -/

/-- **The digits, the sign and what is infinite are in the text.** -/
theorem generalChars_injective {a b : Binary} (ha : a.Proper) (hb : b.Proper)
    (h : generalChars faithful a = generalChars faithful b) : a = b := by
  have hplaces : 0 < faithful := by decide
  -- a text is read back as a sign and, if it is finite, a number rounded to 17 digits
  have hread := congrArg reading h
  cases a with
  | nan => exact absurd ha id
  | infinite s =>
    rw [reading_generalChars_infinite] at hread
    cases b with
    | nan => exact absurd hb id
    | infinite t =>
      rw [reading_generalChars_infinite] at hread
      rw [(Prod.mk.inj hread).1]
    | finite t m q =>
      rw [reading_generalChars_finite hplaces] at hread
      exact absurd (Prod.mk.inj hread).2 (Option.some_ne_none _).symm
  | finite s m q =>
    rw [reading_generalChars_finite hplaces] at hread
    cases b with
    | nan => exact absurd hb id
    | infinite t =>
      rw [reading_generalChars_infinite] at hread
      exact absurd (Prod.mk.inj hread).2 (Option.some_ne_none _)
    | finite t m' q' =>
      rw [reading_generalChars_finite hplaces] at hread
      obtain ⟨hsign, hrounded⟩ := Prod.mk.inj hread
      -- seventeen digits are enough
      obtain ⟨rfl, rfl⟩ := Canonical.eq_of_rounded_eq ha hb (Option.some.inj hrounded)
      rw [hsign]

/-- **With seventeen digits no two numbers are written alike.** -/
theorem general_faithful_injective {x y : Float} (hx : x.isNaN = false) (hy : y.isNaN = false)
    (h : general faithful x = general faithful y) : x = y := by
  apply Binary.ofFloat_injective hx
  apply generalChars_injective (Binary.proper_ofFloat hx) (Binary.proper_ofFloat hy)
  have hchars := congrArg String.toList h
  rwa [general, general, String.toList_ofList, String.toList_ofList] at hchars

end SpanChart.Numeral
