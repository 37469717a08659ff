/-
  HALVES — binary64 counts in halves without rounding.

  A multiple of one half that is less than `2 ^ 52` needs no more than the fifty-three bits that a
  binary64 value has, and none of what is done with such numbers leaves them: the sum of two that is
  still below, the difference of a larger one and a smaller one, half of a whole number, and which
  of two is less.  So on these numbers binary64 is exact arithmetic.

  The proof is about the one way in which `k` halves are kept (`halves`): a zero, or a mantissa with
  its leading bit in place, which is `k` shifted to there.

  1. What is kept so survives being packed into bits and taken out again (`unpack_pack_normal`).
  2. Every operation comes to rounding `c · 2 ^ j` units of `2 ^ (-1 - j)`, which are `c` halves,
     and that is exact (`round_halves`): a shift to the left loses nothing, and a shift to the right
     only drops the zeros that the factor `2 ^ j` put there.
  3. So each operation does on `halves` what natural numbers do (`ofHalves_add` to `ofHalves_lt`),
     and `Halved`, the relation of a binary64 value to the number of halves that it stands for, is
     kept by all of them.
-/
import Mathlib
import SpanChart.Scalar
import SpanChart.Proofs.Faithful
import SpanChart.Proofs.Numbers

namespace SpanChart.Numeral

/-! ## Values -/

/-- The number that a value is, if it is one.  Both zeros are the number zero. -/
def Binary.value? : Binary → Option Rat
  | .finite negative m e => some (if negative then -size m e else size m e)
  | _ => none

/-- A binary64 value is exactly this number. -/
def StandsFor (x : Float) (q : Rat) : Prop := (Binary.ofFloat x).value? = some q

open Float.Model (Format UnpackedFloat totalExponent)
open Float.Model.UnpackedFloat

/-- `k` halves with the leading bit of the mantissa in place. -/
def halves (k : Nat) : UnpackedFloat :=
  if h : k = 0 then .zero .positive
  else .finite .positive (k * 2 ^ (52 - k.log2)) (k.log2 - 53)
    (Nat.mul_pos (Nat.pos_of_ne_zero h) (Nat.two_pow_pos _))

/-- The binary64 value of `k` halves. -/
def ofHalves (k : Nat) : Float := .ofModel (.pack (halves k))

theorem halves_of_pos {k : Nat} (h : 0 < k) :
    halves k = .finite .positive (k * 2 ^ (52 - k.log2)) (k.log2 - 53)
      (Nat.mul_pos h (Nat.two_pow_pos _)) :=
  dif_neg h.ne'

/-! ## Normal mantissas

  A mantissa is normal if its leading bit is in place.
-/

/-- The mantissa has just fifty-three bits. -/
def Normal (m : Nat) : Prop := 2 ^ 52 ≤ m ∧ m < 2 ^ 53

section Normal

variable {k m : Nat}

theorem Normal.log2 (hm : Normal m) : m.log2 = 52 :=
  (Nat.log2_eq_iff (by have := hm.1; omega)).2 hm

/-- A number of fifty-three bits at most has its leading bit no higher than that. -/
theorem log2_le (hk : k < 2 ^ 53) : k.log2 ≤ 52 := by
  rcases Nat.eq_zero_or_pos k with rfl | hpos
  · decide
  · exact Nat.le_of_lt_succ ((Nat.log2_lt hpos.ne').2 hk)

/-- Zeros behind a number shift its leading bit up. -/
theorem log2_mul_two_pow (hpos : 0 < k) (j : Nat) : (k * 2 ^ j).log2 = k.log2 + j := by
  have hprod : k * 2 ^ j ≠ 0 := (Nat.mul_pos hpos (Nat.two_pow_pos j)).ne'
  refine (Nat.log2_eq_iff hprod).2 ⟨?_, ?_⟩
  · rw [pow_add]
    exact Nat.mul_le_mul_right _ (Nat.log2_self_le hpos.ne')
  · rw [add_right_comm, pow_add]
    exact Nat.mul_lt_mul_of_pos_right Nat.lt_log2_self (Nat.two_pow_pos j)

/-- Shifted far enough, any positive number of that size becomes a normal mantissa. -/
theorem normal_shifted (hpos : 0 < k) (hk : k < 2 ^ 53) : Normal (k * 2 ^ (52 - k.log2)) := by
  have hlog := log2_le hk
  have hprod : k * 2 ^ (52 - k.log2) ≠ 0 := (Nat.mul_pos hpos (Nat.two_pow_pos _)).ne'
  refine (Nat.log2_eq_iff hprod).1 ?_
  rw [log2_mul_two_pow hpos]
  omega

end Normal

/-! ## Bits -/

section Bits

variable {m : Nat} {e : Int}

/-- A normal mantissa is packed without its leading bit. -/
theorem pack_normal (hm : Normal m) (hpos : 0 < m) (he : -1074 ≤ e) (he' : e ≤ 971) :
    pack Format.binary64 (.finite .positive m e hpos) =
      packComponents Format.binary64 .positive (BitVec.ofNat 11 (e + 1075).toNat)
        (BitVec.ofNat 52 m) := by
  -- neither too large for the field nor too small for a leading bit, so that two branches are out
  have hbiased : (e + 1023 + 52).toNat = (e + 1075).toNat := by omega
  have hleading : m.log2 + 1 = 53 := congrArg (· + 1) hm.log2
  show (if 2048 ≤ (e + 1023 + 52).toNat + 1 then _ else if m.log2 + 1 = 53 then
    packComponents Format.binary64 .positive (BitVec.ofNat 11 (e + 1023 + 52).toNat)
      (BitVec.ofNat 52 m) else _) = _
  rw [hbiased, if_neg (by omega), if_pos hleading]

/-- The sign is in front of everything else that is packed. -/
theorem unpackSign_packed (exponent : BitVec 11) (mantissa : BitVec 52) :
    unpackSign (packComponents Format.binary64 .positive exponent mantissa) = 0#1 := by
  show ((0#1 ++ exponent) ++ mantissa).extractLsb' 63 1 = 0#1
  rw [BitVec.extractLsb'_append_eq_of_le (by decide),
    BitVec.extractLsb'_append_eq_of_le (by decide)]
  rfl

/-- The leading bit and the others make up the mantissa. -/
theorem toNat_leading (hm : Normal m) : (1#1 ++ BitVec.ofNat 52 m).toNat = m := by
  obtain ⟨hlow, hhigh⟩ := hm
  rw [BitVec.toNat_append, ← Nat.shiftLeft_add_eq_or_of_lt (BitVec.isLt _), BitVec.toNat_ofNat]
  show 1 * 2 ^ 52 + m % 2 ^ 52 = m
  omega

/-- **What is packed is unpacked again.** -/
theorem unpack_pack_normal (hm : Normal m) (hpos : 0 < m) (he : -1074 ≤ e) (he' : e ≤ 971) :
    unpack Format.binary64 (pack Format.binary64 (.finite .positive m e hpos)) =
      .finite .positive m e hpos := by
  have hfield : (BitVec.ofNat 11 (e + 1075).toNat).toNat = (e + 1075).toNat := by
    rw [BitVec.toNat_ofNat]
    exact Nat.mod_eq_of_lt (by omega)
  -- the field is neither of the two that mean something else: all ones and all zeros
  have hnotall : BitVec.ofNat 11 (e + 1075).toNat ≠ -1#11 := by
    intro h
    have hnat := hfield.symm.trans (congrArg BitVec.toNat h)
    have hall : (-1#11).toNat = 2047 := by decide
    omega
  have hnotnone : BitVec.ofNat 11 (e + 1075).toNat ≠ 0#11 := by
    intro h
    have hnat := hfield.symm.trans (congrArg BitVec.toNat h)
    have hnone : (0#11).toNat = 0 := by decide
    omega
  rw [pack_normal hm hpos he he']
  simp only [unpack, unpackMantissa_packComponents, unpackExponent_packComponents,
    unpackSign_packed]
  rw [if_neg hnotall, if_neg hnotnone]
  have hexponent : ((BitVec.ofNat 11 (e + 1075).toNat).toNat : Int) -
      ((Format.binary64.exponentBias : Int) + (Format.binary64.mantissaBitsWithoutImplicit : Int)) =
        e := by
    rw [hfield]
    show ((e + 1075).toNat : Int) - (1023 + 52) = e
    omega
  simp only [UnpackedFloat.finite.injEq]
  exact ⟨rfl, toNat_leading hm, hexponent⟩

end Bits

/-! ## Rounding -/

section Round

variable {m c : Nat} {e : Int}

/-- A normal mantissa has the exponent already that it should have. -/
theorem targetExponent_normal (hm : Normal m) (he : -1074 ≤ e) :
    Format.binary64.targetExponent (totalExponent m e) = e := by
  simp only [Format.targetExponent, totalExponent, hm.log2, Format.mantissaBits, Format.minExponent]
  omega

/-- A shift to the right only drops zeros, if there are as many. -/
theorem shiftRight_zeros (m j : Nat) :
    ExtendedMantissa.ofMantissaAndAccuracy (m * 2 ^ j) .exact >>> j =
      ExtendedMantissa.ofMantissaAndAccuracy m .exact := by
  show Nat.repeat ExtendedMantissa.shiftRightOne j _ = _
  induction j generalizing m with
  | zero => rw [pow_zero, mul_one]; rfl
  | succ j ih =>
    -- the bit that is dropped last is the zero that doubling the mantissa puts there
    have hmul : m * 2 ^ (j + 1) = m * 2 * 2 ^ j := by ring
    rw [Nat.repeat, hmul, ih]
    simp [ExtendedMantissa.shiftRightOne, ExtendedMantissa.ofMantissaAndAccuracy]

/-- A normal mantissa with zeros behind it is rounded to that mantissa. -/
theorem roundWithAccuracy_zeros (hm : Normal m) (hpos : 0 < m) (he : -1074 ≤ e) (j : Nat) :
    roundWithAccuracy Format.binary64 .positive (m * 2 ^ j) (e - j) .exact =
      .finite .positive m e hpos := by
  have htarget : Format.binary64.targetExponent (totalExponent (m * 2 ^ j) (e - j)) = e := by
    have hsame : totalExponent (m * 2 ^ j) (e - j) = totalExponent m e := by
      rw [totalExponent, totalExponent, log2_mul_two_pow hpos]
      push_cast
      omega
    rw [hsame, targetExponent_normal hm he]
  have hfirst : shiftToTargetExponent Format.binary64 (m * 2 ^ j) (e - j) .exact =
      (ExtendedMantissa.ofMantissaAndAccuracy m .exact, e) := by
    have hshift : (e - (e - j)).toNat = j := by omega
    simp only [shiftToTargetExponent, shiftToExponent, htarget, hshift]
    rw [shiftRight_zeros, sub_add_cancel]
  -- rounding has changed nothing, so that there is nothing to shift the second time
  have hsecond : shiftToTargetExponent Format.binary64 m e .exact =
      (ExtendedMantissa.ofMantissaAndAccuracy m .exact, e) := by
    have hnone : (e - e).toNat = 0 := by omega
    simp only [shiftToTargetExponent, shiftToExponent, targetExponent_normal hm he, hnone]
    exact congrArg _ (add_zero e)
  have hexact : (ExtendedMantissa.ofMantissaAndAccuracy m .exact).roundedMantissa = m := rfl
  simp only [roundWithAccuracy, hfirst, hexact, hsecond]
  exact dif_neg hpos.ne'

/-- **Halves are not rounded**: `c · 2 ^ j` units of `2 ^ (-1 - j)` are `c` halves. -/
theorem round_halves (hpos : 0 < c) (hc : c < 2 ^ 53) (j : Nat) :
    UnpackedFloat.round Format.binary64 .positive (c * 2 ^ j) (-1 - j) = halves c := by
  have hlog := log2_le hc
  have htarget : Format.binary64.targetExponent (totalExponent (c * 2 ^ j) (-1 - j)) =
      (c.log2 : Int) - 53 := by
    simp only [Format.targetExponent, totalExponent, log2_mul_two_pow hpos, Format.mantissaBits,
      Format.minExponent]
    push_cast
    omega
  -- the mantissa is shifted to the left if it is too short; zeros are left if it is too long
  have hshifted : decreaseExponent (c * 2 ^ j) (-1 - j) ((c.log2 : Int) - 53) =
      (c * 2 ^ (52 - c.log2) * 2 ^ (j - (52 - c.log2)),
        (c.log2 : Int) - 53 - (j - (52 - c.log2) : Nat)) := by
    have hshift : (-1 - j - ((c.log2 : Int) - 53)).toNat = 52 - c.log2 - j := by omega
    have hbits : j + (52 - c.log2 - j) = 52 - c.log2 + (j - (52 - c.log2)) := by omega
    simp only [decreaseExponent, hshift]
    rw [Nat.shiftLeft_eq, mul_assoc, mul_assoc, ← pow_add, ← pow_add, hbits]
    refine Prod.ext rfl ?_
    show (-1 - (j : Int)) - (52 - c.log2 - j : Nat) = _
    omega
  simp only [UnpackedFloat.round, htarget, hshifted]
  rw [roundWithAccuracy_zeros (normal_shifted hpos hc) (Nat.mul_pos hpos (Nat.two_pow_pos _))
    (by omega), halves_of_pos hpos]

/-- The same with no halves at all, where the sign decides and not the shift. -/
theorem normalize_halves (hc : c < 2 ^ 53) (j : Nat) :
    UnpackedFloat.normalize Format.binary64 ((c * 2 ^ j : Nat) : Int) (-1 - j) .positive =
      halves c := by
  rcases Nat.eq_zero_or_pos c with rfl | hpos
  · rw [Nat.zero_mul]
    rfl
  · have hmantissa : 0 < c * 2 ^ j := Nat.mul_pos hpos (Nat.two_pow_pos j)
    have hcompare : compare ((c * 2 ^ j : Nat) : Int) 0 = .gt :=
      compare_gt_iff_gt.2 (Int.natCast_pos.2 hmantissa)
    rw [UnpackedFloat.normalize, hcompare]
    exact round_halves hpos hc j

end Round

/-! ## The operations -/

section Operations

variable {a b : Nat}

/-- Two numbers of halves are brought to one exponent by zeros behind their mantissas. -/
theorem exists_aligned (ha : a < 2 ^ 53) (hb : b < 2 ^ 53) :
    ∃ j : Nat, min ((a.log2 : Int) - 53) (b.log2 - 53) = -1 - j ∧
      (decreaseExponent (a * 2 ^ (52 - a.log2)) (a.log2 - 53) (-1 - j)).1 = a * 2 ^ j ∧
      (decreaseExponent (b * 2 ^ (52 - b.log2)) (b.log2 - 53) (-1 - j)).1 = b * 2 ^ j := by
  -- `halves` has put so many zeros behind a mantissa, and now there are `j` of them
  have hshift : ∀ {c j : Nat}, c < 2 ^ 53 → 52 - c.log2 ≤ j →
      (decreaseExponent (c * 2 ^ (52 - c.log2)) (c.log2 - 53) (-1 - j)).1 = c * 2 ^ j := by
    intro c j hc hj
    have hlog := log2_le hc
    have hby : ((c.log2 : Int) - 53 - (-1 - j)).toNat = j - (52 - c.log2) := by omega
    simp only [decreaseExponent, hby]
    rw [Nat.shiftLeft_eq, mul_assoc, ← pow_add, Nat.add_sub_cancel' hj]
  have hlog := log2_le ha
  have hlog' := log2_le hb
  exact ⟨52 - min a.log2 b.log2, by omega, hshift ha (by omega), hshift hb (by omega)⟩

/-- Halves are added as they are counted. -/
theorem add_halves (h : a + b < 2 ^ 53) :
    UnpackedFloat.add Format.binary64 (halves a) (halves b) = halves (a + b) := by
  rcases Nat.eq_zero_or_pos a with rfl | ha
  · rw [Nat.zero_add]
    rcases Nat.eq_zero_or_pos b with rfl | hb
    · rfl
    · rw [halves_of_pos hb]
      rfl
  · rcases Nat.eq_zero_or_pos b with rfl | hb
    · rw [Nat.add_zero, halves_of_pos ha]
      rfl
    -- both are positive: aligned, the mantissas add up to that of the sum
    · obtain ⟨j, hmin, hfirst, hsecond⟩ := exists_aligned (a := a) (b := b) (by omega) (by omega)
      rw [halves_of_pos ha, halves_of_pos hb]
      simp only [UnpackedFloat.add, hmin, hfirst, hsecond, Sign.apply]
      rw [← normalize_halves h j, add_mul]
      push_cast
      rfl

/-- And they are taken away like that, if there are enough. -/
theorem sub_halves (ha : a < 2 ^ 53) (hle : b ≤ a) :
    UnpackedFloat.sub Format.binary64 (halves a) (halves b) = halves (a - b) := by
  rcases Nat.eq_zero_or_pos b with rfl | hb
  · rw [Nat.sub_zero]
    rcases Nat.eq_zero_or_pos a with rfl | ha
    · rfl
    · rw [halves_of_pos ha]
      rfl
  · have hpos : 0 < a := by omega
    obtain ⟨j, hmin, hfirst, hsecond⟩ := exists_aligned ha (lt_of_le_of_lt hle ha)
    rw [halves_of_pos hpos, halves_of_pos hb]
    simp only [UnpackedFloat.sub, hmin, hfirst, hsecond, Sign.apply]
    rw [← normalize_halves (c := a - b) (by omega) j, Nat.sub_mul,
      Nat.cast_sub (Nat.mul_le_mul_right _ hle)]

/-- Two as binary64 keeps it. -/
def two : UnpackedFloat := .finite .positive (2 ^ 52) (-51) (Nat.two_pow_pos 52)

/-- Half of an even number of halves.  Of an odd number it would have a quarter, for which there may
    be no bit left. -/
theorem div_halves (h : 2 * a < 2 ^ 53) :
    UnpackedFloat.div Format.binary64 (halves (2 * a)) two = halves a := by
  rcases Nat.eq_zero_or_pos a with rfl | ha
  · rfl
  · have hlog : (2 * a).log2 = a.log2 + 1 := by
      rw [mul_comm]
      exact log2_mul_two_pow ha 1
    have hle := log2_le h
    have hnormal := normal_shifted (Nat.mul_pos two_pos ha) h
    -- the quotient has one zero behind its mantissa
    have hquotient : divCore Format.binary64 (2 * a * 2 ^ (52 - (2 * a).log2))
        ((2 * a).log2 - 53) (2 ^ 52) (-51) =
          (a * 2 ^ (52 - a.log2) * 2 ^ 1, (a.log2 : Int) - 53 - (1 : Nat), .exact) := by
      have htotal : totalExponent (2 * a * 2 ^ (52 - (2 * a).log2)) ((2 * a).log2 - 53) -
          totalExponent (2 ^ 52) (-51) = (a.log2 : Int) - 1 := by
        simp only [totalExponent, hnormal.log2, Nat.log2_two_pow]
        omega
      -- division aims at one bit more than it needs, and shifts the dividend by fifty-three
      have htarget : Format.binary64.targetExponent ((a.log2 : Int) - 1) = (a.log2 : Int) - 54 := by
        simp only [Format.targetExponent, Format.mantissaBits, Format.minExponent]
        omega
      have hmin : min (((2 * a).log2 : Int) - 53 - -51) ((a.log2 : Int) - 54) = a.log2 - 54 := by
        omega
      have hshift : (((2 * a).log2 : Int) - 53 - -51 - (a.log2 - 54)).toNat = 53 := by omega
      -- of the shifted dividend the divisor takes its fifty-two zeros off, and nothing is left over
      have hbits : 2 * a * 2 ^ (52 - (2 * a).log2) * 2 ^ 53 =
          a * 2 ^ (52 - a.log2) * 2 ^ 1 * 2 ^ 52 := by
        have hpow : 2 ^ (52 - a.log2) = 2 ^ (52 - (2 * a).log2) * 2 := by
          rw [← pow_succ]
          congr 1
          omega
        rw [hpow]
        ring
      simp only [divCore, htotal, htarget, hmin, hshift]
      rw [Nat.shiftLeft_eq, hbits, Nat.mul_div_cancel _ (by decide), Nat.mul_mod_left]
      refine Prod.ext rfl (Prod.ext ?_ rfl)
      show (a.log2 : Int) - 54 = a.log2 - 53 - (1 : Nat)
      omega
    rw [halves_of_pos (Nat.mul_pos two_pos ha), two, halves_of_pos ha]
    simp only [UnpackedFloat.div, hquotient]
    exact roundWithAccuracy_zeros (normal_shifted ha (by omega)) _ (by omega) 1

/-- What has its leading bit lower is less. -/
theorem lt_of_log2_lt (h : a.log2 < b.log2) : a < b := by
  have hpos : b ≠ 0 := by
    rintro rfl
    exact absurd h (Nat.not_lt_zero _)
  calc a < 2 ^ (a.log2 + 1) := Nat.lt_log2_self
    _ ≤ 2 ^ b.log2 := Nat.pow_le_pow_right two_pos h
    _ ≤ b := Nat.log2_self_le hpos

/-- Exponents are compared first, and mantissas where these are the same. -/
theorem compare_shifted (a b : Nat) :
    (compare ((a.log2 : Int) - 53) (b.log2 - 53)).then
      (compare (a * 2 ^ (52 - a.log2)) (b * 2 ^ (52 - b.log2))) = compare a b := by
  rcases lt_trichotomy a.log2 b.log2 with hlog | hlog | hlog
  -- fewer bits are less, whatever the bits are
  · rw [Int.compare_eq_lt.2 (by omega), Nat.compare_eq_lt.2 (lt_of_log2_lt hlog)]
    rfl
  -- with as many bits both were shifted alike
  · rw [hlog, Int.compare_eq_eq.2 rfl]
    have hpos := Nat.two_pow_pos (52 - b.log2)
    show compare (a * 2 ^ (52 - b.log2)) (b * 2 ^ (52 - b.log2)) = compare a b
    rcases lt_trichotomy a b with h | rfl | h
    · rw [Nat.compare_eq_lt.2 h, Nat.compare_eq_lt.2 (Nat.mul_lt_mul_of_pos_right h hpos)]
    · rw [Nat.compare_eq_eq.2 rfl, Nat.compare_eq_eq.2 rfl]
    · rw [Nat.compare_eq_gt.2 h, Nat.compare_eq_gt.2 (Nat.mul_lt_mul_of_pos_right h hpos)]
  · rw [Int.compare_eq_gt.2 (by omega), Nat.compare_eq_gt.2 (lt_of_log2_lt hlog)]
    rfl

/-- What has more halves is more. -/
theorem compare_halves (a b : Nat) :
    (halves a).compare (halves b) = some (compare a b) := by
  rcases Nat.eq_zero_or_pos a with rfl | hpos
  · rcases Nat.eq_zero_or_pos b with rfl | hpos'
    · rfl
    · rw [halves_of_pos hpos', Nat.compare_eq_lt.2 hpos']
      rfl
  · rcases Nat.eq_zero_or_pos b with rfl | hpos'
    · rw [halves_of_pos hpos, Nat.compare_eq_gt.2 hpos]
      rfl
    · rw [halves_of_pos hpos, halves_of_pos hpos']
      exact congrArg some (compare_shifted a b)

end Operations

/-! ## Binary64 values -/

section Values

variable {a b k : Nat}

/-- In bits halves are what they were before they were packed. -/
theorem unpack_ofHalves (hk : k < 2 ^ 53) : (ofHalves k).toModel.unpack = halves k := by
  show unpack Format.binary64 (pack Format.binary64 (halves k)) = halves k
  rcases Nat.eq_zero_or_pos k with rfl | hpos
  · rfl
  · have hlog := log2_le hk
    rw [halves_of_pos hpos]
    exact unpack_pack_normal (normal_shifted hpos hk) _ (by omega) (by omega)

theorem ofHalves_zero : ofHalves 0 = 0 := rfl

theorem ofHalves_two : ofHalves 2 = 1 := rfl

theorem unpack_two : (2 : Float).toModel.unpack = two := rfl

theorem ofHalves_add (h : a + b < 2 ^ 53) : ofHalves a + ofHalves b = ofHalves (a + b) := by
  show Float.ofModel (.pack (UnpackedFloat.add _ (ofHalves a).toModel.unpack
    (ofHalves b).toModel.unpack)) = _
  rw [unpack_ofHalves (by omega), unpack_ofHalves (by omega), add_halves h]
  rfl

theorem ofHalves_sub (ha : a < 2 ^ 53) (hle : b ≤ a) :
    ofHalves a - ofHalves b = ofHalves (a - b) := by
  show Float.ofModel (.pack (UnpackedFloat.sub _ (ofHalves a).toModel.unpack
    (ofHalves b).toModel.unpack)) = _
  rw [unpack_ofHalves ha, unpack_ofHalves (by omega), sub_halves ha hle]
  rfl

theorem half_ofHalves (h : 2 * a < 2 ^ 53) : Scalar.half (ofHalves (2 * a)) = ofHalves a := by
  show Float.ofModel (.pack (UnpackedFloat.div _ (ofHalves (2 * a)).toModel.unpack
    (2 : Float).toModel.unpack)) = _
  rw [unpack_ofHalves h, unpack_two, div_halves h]
  rfl

/-- Binary64 compares halves as they are counted. -/
theorem ofHalves_lt (ha : a < 2 ^ 53) (hb : b < 2 ^ 53) : ofHalves a < ofHalves b ↔ a < b := by
  rw [Scalar.lt_iff_compare?, Scalar.compare?, unpack_ofHalves ha, unpack_ofHalves hb,
    compare_halves, Option.some.injEq, Nat.compare_eq_lt]

/-- Below the leading bit a mantissa is what is packed of it. -/
theorem toNat_bits_ofHalves (hpos : 0 < k) (hk : k < 2 ^ 53) :
    (ofHalves k).toBits.toNat = (k.log2 + 1022) * 2 ^ 52 + k * 2 ^ (52 - k.log2) % 2 ^ 52 := by
  have hlog := log2_le hk
  have hfield : ((k.log2 : Int) - 53 + 1075).toNat = k.log2 + 1022 := by omega
  have hbits : (ofHalves k).toBits.toNat = (pack Format.binary64 (halves k)).toNat := rfl
  rw [hbits, halves_of_pos hpos, pack_normal (normal_shifted hpos hk) _ (by omega) (by omega),
    hfield]
  show ((0#1 ++ BitVec.ofNat 11 (k.log2 + 1022)) ++ BitVec.ofNat 52 _).toNat = _
  rw [BitVec.toNat_append, BitVec.toNat_append, ← Nat.shiftLeft_add_eq_or_of_lt (BitVec.isLt _),
    ← Nat.shiftLeft_add_eq_or_of_lt (BitVec.isLt _), BitVec.toNat_ofNat, BitVec.toNat_ofNat,
    Nat.mod_eq_of_lt (a := k.log2 + 1022) (by omega), Nat.shiftLeft_eq, Nat.shiftLeft_eq]
  simp

/-- **Halves stand for halves.** -/
theorem standsFor_ofHalves (hk : k < 2 ^ 53) : StandsFor (ofHalves k) (k / 2) := by
  rcases Nat.eq_zero_or_pos k with rfl | hpos
  · have hzero : Binary.ofFloat (ofHalves 0) = .finite false 0 (-1074) := rfl
    rw [StandsFor, hzero]
    simp [Binary.value?, size]
  · have hlog := log2_le hk
    obtain ⟨hlow, hhigh⟩ := normal_shifted hpos hk
    have hbits := toNat_bits_ofHalves hpos hk
    have hfloat : Binary.ofFloat (ofHalves k) =
        .finite false (k * 2 ^ (52 - k.log2)) (k.log2 - 53) := by
      -- sign, field and fraction are read off the bits by division
      have hsign : (ofHalves k).toBits.toNat / Binary.hiddenBit / 2048 = 0 := by
        unfold Binary.hiddenBit
        omega
      have hfield : (ofHalves k).toBits.toNat / Binary.hiddenBit % 2048 = k.log2 + 1022 := by
        unfold Binary.hiddenBit
        omega
      have hfraction : Binary.hiddenBit + (ofHalves k).toBits.toNat % Binary.hiddenBit =
          k * 2 ^ (52 - k.log2) := by
        unfold Binary.hiddenBit
        omega
      have hexponent : ((k.log2 + 1022 : Nat) : Int) - 1075 = k.log2 - 53 := by omega
      simp only [Binary.ofFloat, Binary.ofBits, hsign, hfield, hfraction, hexponent]
      rw [if_neg (by omega), if_neg (by omega)]
      rfl
    -- what the mantissa was shifted by is what the exponent is less
    have hsize : size (k * 2 ^ (52 - k.log2)) (k.log2 - 53) = k / 2 := by
      have hunit : (2 : ℚ) ^ (52 - k.log2) * 2 ^ ((k.log2 : Int) - 53) = 2 ^ (-1 : Int) := by
        rw [← zpow_natCast, ← zpow_add₀ two_ne_zero]
        congr 1
        omega
      rw [size, Nat.cast_mul, Nat.cast_pow, Nat.cast_ofNat, mul_assoc, hunit, zpow_neg_one]
      rfl
    rw [StandsFor, hfloat, Binary.value?, hsize]
    rfl

end Values

/-! ## Exact arithmetic

  The limit is `2 ^ 52` for the numbers and `2 ^ 53` for the halves that are counted.  A sum asks
  for it again, since it may pass it; the other operations stay below what they are given.
-/

/-- A binary64 value is kept as so many halves, and that is this number. -/
def Halved (x : Float) (q : Rat) : Prop := ∃ k : Nat, k < 2 ^ 53 ∧ x = ofHalves k ∧ q = k / 2

/-- Any number of halves that is below the limit can be kept so. -/
theorem exists_halved {q : Rat} (hq : ∃ k : Nat, q = k / 2) (hlimit : q < 2 ^ 52) :
    ∃ x, Halved x q := by
  obtain ⟨k, rfl⟩ := hq
  refine ⟨ofHalves k, k, ?_, rfl, rfl⟩
  have hcast : (k : ℚ) < (2 ^ 53 : Nat) := by
    push_cast
    linarith
  exact_mod_cast hcast

namespace Halved

variable {x y : Float} {a b : Rat}

theorem standsFor (h : Halved x a) : StandsFor x a := by
  obtain ⟨k, hk, rfl, rfl⟩ := h
  exact standsFor_ofHalves hk

theorem nonneg (h : Halved x a) : 0 ≤ a := by
  obtain ⟨k, -, -, rfl⟩ := h
  positivity

theorem zero : Halved 0 0 := ⟨0, by decide, ofHalves_zero.symm, by norm_num⟩

theorem one : Halved 1 1 := ⟨2, by decide, ofHalves_two.symm, by norm_num⟩

/-- Sums are exact as long as they are below the limit. -/
theorem add (hx : Halved x a) (hy : Halved y b) (hlimit : a + b < 2 ^ 52) :
    Halved (x + y) (a + b) := by
  obtain ⟨j, hj, rfl, rfl⟩ := hx
  obtain ⟨k, hk, rfl, rfl⟩ := hy
  have hsum : ((j + k : Nat) : ℚ) < (2 ^ 53 : Nat) := by
    push_cast
    linarith
  have hjk : j + k < 2 ^ 53 := by exact_mod_cast hsum
  refine ⟨j + k, hjk, ofHalves_add hjk, ?_⟩
  push_cast
  ring

/-- Differences are exact without any limit, since they are not larger than what is given. -/
theorem sub (hx : Halved x a) (hy : Halved y b) (hle : b ≤ a) : Halved (x - y) (a - b) := by
  obtain ⟨j, hj, rfl, rfl⟩ := hx
  obtain ⟨k, hk, rfl, rfl⟩ := hy
  have hkj : k ≤ j := by
    have hcast : (k : ℚ) ≤ j := by linarith
    exact_mod_cast hcast
  refine ⟨j - k, by omega, ofHalves_sub hj hkj, ?_⟩
  rw [Nat.cast_sub hkj]
  ring

/-- Half of a whole number. -/
theorem half (hx : Halved x a) (hwhole : ∃ n : Nat, a = n) : Halved (Scalar.half x) (a / 2) := by
  obtain ⟨k, hk, rfl, rfl⟩ := hx
  obtain ⟨n, hn⟩ := hwhole
  -- a whole number is an even number of halves
  obtain rfl : k = 2 * n := by
    have hcast : (k : ℚ) = (2 * n : Nat) := by
      push_cast
      linarith
    exact_mod_cast hcast
  exact ⟨n, by omega, half_ofHalves hk, by rw [hn]⟩

theorem lt_iff (hx : Halved x a) (hy : Halved y b) : x < y ↔ a < b := by
  obtain ⟨j, hj, rfl, rfl⟩ := hx
  obtain ⟨k, hk, rfl, rfl⟩ := hy
  rw [ofHalves_lt hj hk, div_lt_div_iff_of_pos_right two_pos, Nat.cast_lt]

/-- Of two numbers of halves binary64 takes the larger one. -/
theorem larger (hx : Halved x a) (hy : Halved y b) :
    Halved (Scalar.larger x y) (Scalar.larger a b) := by
  by_cases h : a < b
  · rw [Scalar.larger_of_lt h, Scalar.larger_of_lt ((hx.lt_iff hy).2 h)]
    exact hy
  · rw [Scalar.larger_of_not_lt h, Scalar.larger_of_not_lt fun hlt => h ((hx.lt_iff hy).1 hlt)]
    exact hx

end Halved

end SpanChart.Numeral
