/-
  NOTATION — the number a text in general notation stands for.

  A number is written in one of three layouts, all of them digits before a point, digits after it
  and an exponent, of which the last two may be missing.  Which layout it was need not be known to
  read the text back: `magnitude` cuts the text at the exponent's letter and at the point, and takes
  the digits on both sides of the point for one integer.

  What is left out when a number is written does not matter to it.  Zeros at the end of a fraction
  count nothing (`decimal_append_zeros`), and neither do those at the start of an exponent.  So the
  text of a positive number stands for its leading digits, exactly (`written_generalPositive`), and
  with the sign before it the text of any number is read back (`reading_generalChars_finite`).
-/
import SpanChart.Proofs.Rounding
import SpanChart.Proofs.Wording

namespace SpanChart.Numeral

/-! ## Reading -/

/-- The number with these digits before its point and those after it: one integer of all of them,
    and a power of ten for each digit after the point. -/
def decimal (whole fraction : List Char) : ℚ :=
  (Nat.ofDigitChars 10 (whole ++ fraction) 0 : ℚ) * 10 ^ (-(fraction.length : ℤ))

/-- The exponent that a text ends with, from its letter on.  A sign is always written, and without a
    letter there is no exponent. -/
def readExponent : List Char → ℤ
  | 'e' :: '-' :: digits => -(Nat.ofDigitChars 10 digits 0 : ℤ)
  | 'e' :: _ :: digits => (Nat.ofDigitChars 10 digits 0 : ℤ)
  | _ => 0

/-- The number that a text without a sign stands for. -/
def magnitude (text : List Char) : ℚ :=
  let mantissa := text.takeWhile (· != 'e')
  decimal (mantissa.takeWhile (· != '.')) ((mantissa.dropWhile (· != '.')).drop 1) *
    10 ^ readExponent (text.dropWhile (· != 'e'))

/-! ## Digits -/

/-- There are only digits in the text. -/
def Digits (text : List Char) : Prop := ∀ c ∈ text, c.isDigit = true

/-- A letter or a point is no digit. -/
theorem Digits.all_ne {text : List Char} (h : Digits text) {mark : Char}
    (hmark : mark.isDigit = false) : ∀ c ∈ text, (c != mark) = true := by
  intro c hc
  rw [bne_iff_ne]
  rintro rfl
  rw [h c hc] at hmark
  contradiction

theorem digits_toDigits (n : Nat) : Digits (Nat.toDigits 10 n) :=
  fun _ hc => Nat.isDigit_of_mem_toDigits (by decide) (by decide) hc

theorem digits_replicate_zero (n : Nat) : Digits (List.replicate n '0') := by
  intro c hc
  rw [List.eq_of_mem_replicate hc]
  decide

theorem Digits.append {a b : List Char} (ha : Digits a) (hb : Digits b) : Digits (a ++ b) := by
  intro c hc
  exact (List.mem_append.1 hc).elim (ha c) (hb c)

theorem Digits.take {text : List Char} (h : Digits text) (n : Nat) : Digits (text.take n) :=
  fun c hc => h c (List.mem_of_mem_take hc)

theorem Digits.drop {text : List Char} (h : Digits text) (n : Nat) : Digits (text.drop n) :=
  fun c hc => h c (List.mem_of_mem_drop hc)

/-! ## Zeros that are left out -/

/-- Only zeros are trimmed. -/
theorem exists_trimmed_append (digits : List Char) :
    ∃ n, digits = trimmed digits ++ List.replicate n '0' := by
  refine ⟨(digits.reverse.takeWhile (· == '0')).length, ?_⟩
  -- trimming drops from the reversed digits what it finds equal to a zero there
  have hzeros : digits.reverse.takeWhile (· == '0') =
      List.replicate (digits.reverse.takeWhile (· == '0')).length '0' := by
    rw [List.eq_replicate_iff]
    refine ⟨rfl, fun c hc => ?_⟩
    have hzero : (c == '0') = true := List.mem_takeWhile_imp (p := (· == '0')) hc
    exact beq_iff_eq.1 hzero
  have hsplit := List.takeWhile_append_dropWhile (p := (· == '0')) (l := digits.reverse)
  rw [trimmed, ← List.reverse_replicate, ← hzeros, ← List.reverse_append, hsplit,
    List.reverse_reverse]

/-- Trimmed digits are digits. -/
theorem Digits.trimmed {digits : List Char} (h : Digits digits) : Digits (trimmed digits) := by
  obtain ⟨n, hn⟩ := exists_trimmed_append digits
  intro c hc
  apply h
  rw [hn]
  exact List.mem_append_left _ hc

/-- **Zeros at the end of a fraction count nothing.** -/
theorem decimal_append_zeros (whole fraction : List Char) (n : Nat) :
    decimal whole (fraction ++ List.replicate n '0') = decimal whole fraction := by
  -- each zero makes the integer ten times as large and the unit ten times as small
  have hcancel : (10 : ℚ) ^ n * 10 ^ (-(n : ℤ)) = 1 := by
    rw [← zpow_natCast, ← zpow_add₀ (by norm_num), add_neg_cancel, zpow_zero]
  simp only [decimal]
  rw [← List.append_assoc, Nat.ofDigitChars_append, Nat.ofDigitChars_replicate_zero,
    List.length_append, List.length_replicate]
  push_cast
  rw [neg_add, zpow_add₀ (by norm_num)]
  calc (10 : ℚ) ^ n * Nat.ofDigitChars 10 (whole ++ fraction) 0 *
        (10 ^ (-(fraction.length : ℤ)) * 10 ^ (-(n : ℤ)))
      = Nat.ofDigitChars 10 (whole ++ fraction) 0 * 10 ^ (-(fraction.length : ℤ)) *
          (10 ^ n * 10 ^ (-(n : ℤ))) := by ring
    _ = Nat.ofDigitChars 10 (whole ++ fraction) 0 * 10 ^ (-(fraction.length : ℤ)) := by
        rw [hcancel, mul_one]

/-- Something is left of digits that are not all zeros. -/
theorem trimmed_ne_nil {digits : List Char} (h : Nat.ofDigitChars 10 digits 0 ≠ 0) :
    trimmed digits ≠ [] := by
  intro hnil
  obtain ⟨n, hn⟩ := exists_trimmed_append digits
  rw [hnil, List.nil_append] at hn
  -- if nothing were left, all digits would have been zeros
  rw [hn, Nat.ofDigitChars_replicate_zero] at h
  exact h (mul_zero _)

/-- So trimming a fraction changes nothing, also behind zeros that stay. -/
theorem decimal_trimmed (whole zeros fraction : List Char) :
    decimal whole (zeros ++ trimmed fraction) = decimal whole (zeros ++ fraction) := by
  obtain ⟨n, hn⟩ := exists_trimmed_append fraction
  calc decimal whole (zeros ++ trimmed fraction)
      = decimal whole (zeros ++ trimmed fraction ++ List.replicate n '0') :=
        (decimal_append_zeros _ _ _).symm
    _ = decimal whole (zeros ++ fraction) := by rw [List.append_assoc, ← hn]

/-- Digits cut at a point stand for the same integer, so many decades further down. -/
theorem decimal_take_drop (digits : List Char) {n : Nat} (hn : n ≤ digits.length) :
    decimal (digits.take n) (digits.drop n) =
      (Nat.ofDigitChars 10 digits 0 : ℚ) * 10 ^ ((n : ℤ) - digits.length) := by
  simp only [decimal]
  rw [List.take_append_drop, List.length_drop, Nat.cast_sub hn, neg_sub]

/-- An exponent is read back, whatever zeros fill it up to two digits. -/
theorem readExponent_exponentPart (e : ℤ) : readExponent (exponentPart e) = e := by
  -- zeros in front of an integer count nothing
  have hdigits : Nat.ofDigitChars 10 (List.replicate (2 - (Nat.toDigits 10 e.natAbs).length) '0' ++
      Nat.toDigits 10 e.natAbs) 0 = e.natAbs := by
    rw [Nat.ofDigitChars_append, Nat.ofDigitChars_replicate_zero, mul_zero,
      Nat.ofDigitChars_ten_toDigits]
  unfold exponentPart
  split
  · show -(Nat.ofDigitChars 10 _ 0 : ℤ) = e
    rw [hdigits]
    omega
  · show (Nat.ofDigitChars 10 _ 0 : ℤ) = e
    rw [hdigits]
    omega

/-! ## Numbers that are written -/

/-- The text is that of a number: digits, at least one of them before the point, and an exponent, or
    none.  This is all that reading relies on, so the layouts are shown to be of this form and are
    not looked at any more. -/
inductive Written : List Char → ℚ → Prop where
  | plain {whole fraction : List Char} (first : whole ≠ []) (before : Digits whole)
      (after : Digits fraction) :
      Written (whole ++ fractionPart fraction) (decimal whole fraction)
  | scaled {whole fraction : List Char} (e : ℤ) (first : whole ≠ []) (before : Digits whole)
      (after : Digits fraction) :
      Written (whole ++ fractionPart fraction ++ exponentPart e) (decimal whole fraction * 10 ^ e)

/-- The digits before the point are those before the point. -/
theorem decimal_cut {whole fraction : List Char} (hwhole : Digits whole) :
    decimal ((whole ++ fractionPart fraction).takeWhile (· != '.'))
      (((whole ++ fractionPart fraction).dropWhile (· != '.')).drop 1) =
        decimal whole fraction := by
  rw [List.takeWhile_append_of_pos (hwhole.all_ne (by decide)),
    List.dropWhile_append_of_pos (hwhole.all_ne (by decide))]
  cases fraction with
  -- without a fraction there is no point either, and nothing behind the digits
  | nil => rw [fractionPart, List.takeWhile_nil, List.append_nil, List.dropWhile_nil, List.drop_nil]
  | cons c cs =>
    rw [fractionPart, List.takeWhile_cons_of_neg (by decide), List.append_nil,
      List.dropWhile_cons_of_neg (by decide), List.drop_one, List.tail_cons]
    · exact List.cons_ne_nil _ _

/-- There is no exponent before the exponent. -/
theorem ne_of_mem_mantissa {whole fraction : List Char} (hwhole : Digits whole)
    (hfraction : Digits fraction) : ∀ c ∈ whole ++ fractionPart fraction, (c != 'e') = true := by
  intro c hc
  rcases List.mem_append.1 hc with hc | hc
  · exact hwhole.all_ne (by decide) c hc
  · cases fraction with
    | nil => exact absurd hc List.not_mem_nil
    | cons d ds =>
      rcases List.mem_cons.1 hc with rfl | hc
      · decide
      · exact hfraction.all_ne (by decide) c hc

/-- **What is written is read.** -/
theorem Written.magnitude_eq {text : List Char} {x : ℚ} (h : Written text x) :
    magnitude text = x := by
  cases h with
  | @plain whole fraction _ before after =>
    -- no letter comes, so all of the text is mantissa
    have hmantissa := ne_of_mem_mantissa before after
    have htake : (whole ++ fractionPart fraction).takeWhile (· != 'e') =
        whole ++ fractionPart fraction := List.takeWhile_eq_self_iff.2 hmantissa
    have hdrop : (whole ++ fractionPart fraction).dropWhile (· != 'e') = [] :=
      List.dropWhile_eq_nil_iff.2 hmantissa
    simp only [magnitude]
    rw [htake, hdrop, decimal_cut before, readExponent, zpow_zero, mul_one]
    · simp
    · simp
  | @scaled whole fraction e _ before after =>
    -- the first letter is the one that the exponent begins with
    have hmantissa := ne_of_mem_mantissa before after
    have hletter : exponentPart e = 'e' :: (exponentPart e).tail := rfl
    have htake : (whole ++ fractionPart fraction ++ exponentPart e).takeWhile (· != 'e') =
        whole ++ fractionPart fraction := by
      rw [List.takeWhile_append_of_pos hmantissa, hletter, List.takeWhile_cons_of_neg (by decide),
        List.append_nil]
    have hdrop : (whole ++ fractionPart fraction ++ exponentPart e).dropWhile (· != 'e') =
        exponentPart e := by
      rw [List.dropWhile_append_of_pos hmantissa, hletter, List.dropWhile_cons_of_neg (by decide)]
    simp only [magnitude]
    rw [htake, hdrop, decimal_cut before, readExponent_exponentPart]

/-- What is written begins with a digit. -/
theorem Written.exists_cons {text : List Char} {x : ℚ} (h : Written text x) :
    ∃ c rest, text = c :: rest ∧ c.isDigit = true := by
  cases h with
  | plain first before after =>
    obtain ⟨c, cs, rfl⟩ := List.exists_cons_of_ne_nil first
    exact ⟨c, _, rfl, before c List.mem_cons_self⟩
  | scaled e first before after =>
    obtain ⟨c, cs, rfl⟩ := List.exists_cons_of_ne_nil first
    exact ⟨c, _, rfl, before c List.mem_cons_self⟩

/-! ## Layouts -/

theorem fractionPart_of_ne_nil {fraction : List Char} (h : fraction ≠ []) :
    fractionPart fraction = '.' :: fraction := by
  cases fraction with
  | nil => exact absurd rfl h
  | cons c cs => rfl

/-! Both layouts write `digits`, read as one integer, with the first of them in the decade `e`. -/

section Layouts

variable {digits : List Char} (hdigits : Digits digits)
  (hnonzero : Nat.ofDigitChars 10 digits 0 ≠ 0) {e : ℤ}

include hdigits hnonzero

/-- One digit before the point. -/
theorem written_scientific :
    Written (scientific digits e)
      ((Nat.ofDigitChars 10 digits 0 : ℚ) * 10 ^ (e + 1 - digits.length)) := by
  have hpos : 0 < digits.length := by
    rw [List.length_pos_iff]
    rintro rfl
    exact hnonzero Nat.ofDigitChars_nil
  have hvalue : decimal (digits.take 1) (trimmed (digits.drop 1)) * 10 ^ e =
      (Nat.ofDigitChars 10 digits 0 : ℚ) * 10 ^ (e + 1 - digits.length) := by
    -- the trimmed zeros are put back, and the digits are cut after the first of them
    have htrimmed := decimal_trimmed (digits.take 1) [] (digits.drop 1)
    rw [List.nil_append, List.nil_append] at htrimmed
    rw [htrimmed, decimal_take_drop digits hpos, mul_assoc, ← zpow_add₀ (by norm_num)]
    congr 2
    omega
  rw [← hvalue]
  refine .scaled e ?_ (hdigits.take 1) (hdigits.drop 1).trimmed
  exact List.ne_nil_of_length_pos (by rw [List.length_take]; omega)

/-- All the digits where they belong: below one, with zeros between the point and the first. -/
theorem written_plain (he : e < digits.length) :
    Written (plain digits e)
      ((Nat.ofDigitChars 10 digits 0 : ℚ) * 10 ^ (e + 1 - digits.length)) := by
  unfold plain
  split
  · next hneg =>
    -- below one: a zero before the point, and zeros after it down to the first digit
    have hfraction : List.replicate (e.natAbs - 1) '0' ++ trimmed digits ≠ [] :=
      List.append_ne_nil_of_right_ne_nil _ (trimmed_ne_nil hnonzero)
    have hvalue : decimal ['0'] (List.replicate (e.natAbs - 1) '0' ++ trimmed digits) =
        (Nat.ofDigitChars 10 digits 0 : ℚ) * 10 ^ (e + 1 - digits.length) := by
      -- the zero before the point joins those after it, and all of them count nothing
      have hzeros : ['0'] ++ (List.replicate (e.natAbs - 1) '0' ++ digits) =
          List.replicate (e.natAbs - 1 + 1) '0' ++ digits := by
        rw [List.replicate_succ, List.singleton_append, List.cons_append]
      rw [decimal_trimmed, decimal, hzeros, Nat.ofDigitChars_append,
        Nat.ofDigitChars_replicate_zero, mul_zero, List.length_append, List.length_replicate]
      congr 2
      omega
    rw [← hvalue, ← fractionPart_of_ne_nil hfraction]
    exact .plain (List.cons_ne_nil _ []) (digits_replicate_zero 1)
      ((digits_replicate_zero _).append hdigits.trimmed)
  · next hpos =>
    -- from one on: the point is somewhere among the digits, or behind the last
    have hcut : e.toNat + 1 ≤ digits.length := by omega
    have hvalue : decimal (digits.take (e.toNat + 1)) (trimmed (digits.drop (e.toNat + 1))) =
        (Nat.ofDigitChars 10 digits 0 : ℚ) * 10 ^ (e + 1 - digits.length) := by
      have htrimmed := decimal_trimmed (digits.take (e.toNat + 1)) [] (digits.drop (e.toNat + 1))
      rw [List.nil_append, List.nil_append] at htrimmed
      rw [htrimmed, decimal_take_drop digits hcut]
      congr 2
      omega
    rw [← hvalue]
    refine .plain ?_ (hdigits.take _) (hdigits.drop _).trimmed
    exact List.ne_nil_of_length_pos (by rw [List.length_take]; omega)

end Layouts

/-- **The text of a positive number is that of its leading digits**, in either layout. -/
theorem written_generalPositive {places num den : Nat} (hplaces : 0 < places) (hnum : 0 < num)
    (hden : 0 < den) :
    Written (generalPositive places num den) ((significant places num den).value places) := by
  obtain ⟨-, -, -, hlow, -⟩ := exists_rounded hplaces hnum hden
  have hlength := length_digits_significant hplaces hnum hden
  simp only [generalPositive, Significant.value]
  generalize significant places num den = s at hlow hlength ⊢
  have hdigits := digits_toDigits s.digits
  have hread : Nat.ofDigitChars 10 (Nat.toDigits 10 s.digits) 0 = s.digits :=
    Nat.ofDigitChars_ten_toDigits
  -- the first of the leading digits is not a zero
  have hnonzero : Nat.ofDigitChars 10 (Nat.toDigits 10 s.digits) 0 ≠ 0 := by
    have : 0 < 10 ^ (places - 1) := by positivity
    omega
  -- either layout stands for the same number, so which one it is does not matter
  split
  · have hwritten := written_scientific hdigits hnonzero (e := s.decade)
    rwa [hread, hlength] at hwritten
  · have hwritten := written_plain hdigits hnonzero (e := s.decade) (by omega)
    rwa [hread, hlength] at hwritten

/-- Zero is written as it is. -/
theorem written_zero : Written ['0'] 0 := by
  have hvalue : decimal ['0'] [] = 0 := by
    rw [decimal, List.append_nil]
    norm_num [Nat.ofDigitChars_cons]
  rw [← hvalue]
  exact .plain (List.cons_ne_nil _ []) (digits_replicate_zero 1) (digits_replicate_zero 0)

/-! ## Signs -/

/-- What a text without a sign stands for: a number, or more than any number. -/
def unsigned (text : List Char) : Option ℚ :=
  if text = ['i', 'n', 'f'] then none else some (magnitude text)

/-- Whether the text of a number has a sign, and what follows it. -/
def reading : List Char → Bool × Option ℚ
  | '-' :: text => (true, unsigned text)
  | text => (false, unsigned text)

/-- The sign that is written before a text is the one that is read, if the text has none itself. -/
theorem reading_signPart (negative : Bool) {c : Char} {rest : List Char} (hc : c ≠ '-') :
    reading (signPart negative ++ c :: rest) = (negative, unsigned (c :: rest)) := by
  cases negative with
  | true => rfl
  | false =>
    show reading (c :: rest) = _
    -- no sign is written, and the text does not begin with one by itself
    unfold reading
    split
    · next heq => exact absurd (List.cons.inj heq).1 hc
    · rfl

/-- A sign before a number does not keep it from being read. -/
theorem Written.reading_eq {text : List Char} {x : ℚ} (h : Written text x) (negative : Bool) :
    reading (signPart negative ++ text) = (negative, some x) := by
  obtain ⟨c, rest, rfl, hc⟩ := h.exists_cons
  -- what begins with a digit begins neither with a sign nor like an infinity
  have hsign : c ≠ '-' := by
    rintro rfl
    exact absurd hc (by decide)
  have hinf : c :: rest ≠ ['i', 'n', 'f'] := by
    intro heq
    rw [(List.cons.inj heq).1] at hc
    exact absurd hc (by decide)
  rw [reading_signPart negative hsign, unsigned, if_neg hinf, h.magnitude_eq]

/-- The number that a positive or zero mantissa and an exponent are rounded to. -/
def rounded (places mantissa : Nat) (exponent : Int) : ℚ :=
  if mantissa = 0 then 0
  else
    (significant places (mantissa * 2 ^ exponent.toNat) (2 ^ (-exponent).toNat)).value places

/-- **Texts of numbers are read back**, as the numbers they were rounded to. -/
theorem reading_generalChars_finite {places : Nat} (hplaces : 0 < places) (negative : Bool)
    (mantissa : Nat) (exponent : Int) :
    reading (generalChars places (.finite negative mantissa exponent)) =
      (negative, some (rounded places mantissa exponent)) := by
  have hmax : max places 1 = places := max_eq_left hplaces
  simp only [generalChars, rounded, Nat.pow_eq]
  split
  · exact written_zero.reading_eq negative
  · next hne =>
    rw [hmax]
    exact (written_generalPositive hplaces (by positivity) (by positivity)).reading_eq negative

/-- An infinity is read back as more than any number, with its sign. -/
theorem reading_generalChars_infinite (places : Nat) (negative : Bool) :
    reading (generalChars places (.infinite negative)) = (negative, none) := by
  rw [generalChars, reading_signPart negative (by decide), unsigned, if_pos rfl]

end SpanChart.Numeral
