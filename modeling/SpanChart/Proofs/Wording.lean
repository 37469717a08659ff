/-
  WORDING — what the texts are made of that the program writes.

  Texts are put together of fixed words and of numbers.  A number is written with digits and eight
  other characters, whatever the number and however many digits it gets (`used_of_mem_general`).  No
  blank is among them and no quote, nothing that begins an element and nothing that ends a line, so
  that where elements and lines begin and end is decided by the fixed words alone.

  A message is one line for that reason: the words before its last ones do not end a line, the
  numbers between them cannot, and the last words end one (`IsLine.prepend`).

  The proofs about messages follow the text from its end to its beginning, because that is how texts
  that are put together from the left are taken apart: the last piece first.
-/
import SpanChart.Command

namespace SpanChart

/-! ## The characters of numbers -/

namespace Numeral

/-- The characters that numbers are written with: digits, signs, the point, the letter before an
    exponent, and those of `nan` and `inf`. -/
def Used (c : Char) : Prop := c.isDigit = true ∨ c ∈ ['+', '-', '.', 'e', 'n', 'a', 'i', 'f']

instance : DecidablePred Used := fun _ => inferInstanceAs (Decidable (_ ∨ _))

theorem used_of_mem_toDigits {n : Nat} {c : Char} (hc : c ∈ Nat.toDigits 10 n) : Used c :=
  Or.inl (Nat.isDigit_of_mem_toDigits (by decide) (by decide) hc)

/-- Of zeros there are only zeros. -/
theorem used_of_mem_replicate {n : Nat} {c : Char} (hc : c ∈ List.replicate n '0') : Used c := by
  obtain rfl := List.eq_of_mem_replicate hc
  decide

section Digits

variable {digits : List Char} (hdigits : ∀ c ∈ digits, Used c)

include hdigits

theorem used_of_mem_trimmed : ∀ c ∈ trimmed digits, Used c := by
  intro c hc
  -- what is left after trimming was among the digits before
  have hmem := (List.dropWhile_sublist _).subset (List.mem_reverse.1 hc)
  exact hdigits c (List.mem_reverse.1 hmem)

theorem used_of_mem_fractionPart : ∀ c ∈ fractionPart digits, Used c := by
  cases digits with
  | nil => exact hdigits
  | cons d ds =>
    intro c hc
    rcases List.mem_cons.1 hc with rfl | hc
    · decide
    · exact hdigits c hc

/-- What comes after the point. -/
theorem used_of_mem_fraction (n : Nat) : ∀ c ∈ fractionPart (trimmed (digits.drop n)), Used c := by
  apply used_of_mem_fractionPart
  apply used_of_mem_trimmed
  intro c hc
  exact hdigits c (List.mem_of_mem_drop hc)

omit hdigits in
/-- An exponent has a letter, a sign and two digits or more. -/
theorem used_of_mem_exponentPart (e : Int) : ∀ c ∈ exponentPart e, Used c := by
  intro c hc
  rcases List.mem_cons.1 hc with rfl | hc
  · decide
  rcases List.mem_cons.1 hc with rfl | hc
  · split <;> decide
  rcases List.mem_append.1 hc with hc | hc
  · exact used_of_mem_replicate hc
  · exact used_of_mem_toDigits hc

/-- Scientific notation is one digit, a fraction and an exponent. -/
theorem used_of_mem_scientific (e : Int) : ∀ c ∈ scientific digits e, Used c := by
  intro c hc
  rcases List.mem_append.1 hc with hc | hc
  · rcases List.mem_append.1 hc with hc | hc
    · exact hdigits c (List.mem_of_mem_take hc)
    · exact used_of_mem_fraction hdigits _ c hc
  · exact used_of_mem_exponentPart e c hc

/-- Plain notation has a zero in front and zeros after the point if the number is below one. -/
theorem used_of_mem_plain (e : Int) : ∀ c ∈ plain digits e, Used c := by
  intro c hc
  unfold plain at hc
  split at hc
  · rcases List.mem_cons.1 hc with rfl | hc
    · decide
    rcases List.mem_cons.1 hc with rfl | hc
    · decide
    rcases List.mem_append.1 hc with hc | hc
    · exact used_of_mem_replicate hc
    · exact used_of_mem_trimmed hdigits c hc
  · rcases List.mem_append.1 hc with hc | hc
    · exact hdigits c (List.mem_of_mem_take hc)
    · exact used_of_mem_fraction hdigits _ c hc

end Digits

theorem used_of_mem_generalPositive {places num den : Nat} {c : Char}
    (hc : c ∈ generalPositive places num den) : Used c := by
  have hdigits : ∀ c ∈ Nat.toDigits 10 (significant places num den).digits, Used c :=
    fun c hc => used_of_mem_toDigits hc
  simp only [generalPositive] at hc
  -- whichever notation was picked, its digits are those of an integer
  split at hc
  · exact used_of_mem_scientific hdigits _ c hc
  · exact used_of_mem_plain hdigits _ c hc

theorem used_of_mem_signPart {negative : Bool} {c : Char} (hc : c ∈ signPart negative) :
    Used c := by
  cases negative with
  | false => exact absurd hc List.not_mem_nil
  | true =>
    obtain rfl := List.mem_singleton.1 hc
    decide

/-- **Numbers are written with few characters.** -/
theorem used_of_mem_general {places : Nat} {x : Float} {c : Char}
    (hc : c ∈ (general places x).toList) : Used c := by
  -- there are three kinds of values: no number, an infinity, and a number with a mantissa
  rw [general, String.toList_ofList] at hc
  cases hx : Binary.ofFloat x with
  | nan =>
    rw [hx] at hc
    have hall : ∀ c ∈ ['n', 'a', 'n'], Used c := by simp [Used]
    exact hall c hc
  | infinite negative =>
    rw [hx, generalChars] at hc
    have hall : ∀ c ∈ ['i', 'n', 'f'], Used c := by simp [Used]
    rcases List.mem_append.1 hc with hc | hc
    · exact used_of_mem_signPart hc
    · exact hall c hc
  | finite negative mantissa exponent =>
    rw [hx, generalChars] at hc
    rcases List.mem_append.1 hc with hc | hc
    · exact used_of_mem_signPart hc
    -- zero is a single digit, and anything else has leading digits
    · split at hc
      · obtain rfl := List.mem_singleton.1 hc
        decide
      · exact used_of_mem_generalPositive hc

/-- Counts are written with digits. -/
theorem used_of_mem_toString {n : Nat} {c : Char} (hc : c ∈ (toString n).toList) : Used c := by
  rw [Nat.toString_eq_repr, Nat.toList_repr] at hc
  exact used_of_mem_toDigits hc

end Numeral

/-! ## Lines -/

/-- The text does not end a line anywhere. -/
def Unbroken (text : String) : Prop := '\n' ∉ text.toList

/-- The text is one line, its end included. -/
structure IsLine (text : String) : Prop where
  ends : text.toList.getLast? = some '\n'
  once : text.toList.count '\n' = 1

instance (text : String) : Decidable (Unbroken text) := inferInstanceAs (Decidable (_ ∉ _))

instance (text : String) : Decidable (IsLine text) :=
  decidable_of_iff (text.toList.getLast? = some '\n' ∧ text.toList.count '\n' = 1)
    ⟨fun h => ⟨h.1, h.2⟩, fun h => ⟨h.ends, h.once⟩⟩

theorem unbroken_of_used {text : String} (h : ∀ c ∈ text.toList, Numeral.Used c) :
    Unbroken text := by
  intro hmem
  -- an end of line is not among the characters of numbers
  have hnot : ¬Numeral.Used '\n' := by decide
  exact hnot (h _ hmem)

/-- A number does not end a line, however many digits it is written with. -/
theorem unbroken_general (places : Nat) (x : Float) : Unbroken (Numeral.general places x) :=
  unbroken_of_used fun _ hc => Numeral.used_of_mem_general hc

theorem unbroken_toString (n : Nat) : Unbroken (toString n) :=
  unbroken_of_used fun _ hc => Numeral.used_of_mem_toString hc

/-- Words are written as their numbers. -/
theorem unbroken_toString_word (w : UInt64) : Unbroken (toString w) := by
  have h : toString w = toString w.toNat := rfl
  rw [h]
  exact unbroken_toString w.toNat

/-- Texts that do not end a line do not end one together. -/
theorem Unbroken.append {a b : String} (ha : Unbroken a) (hb : Unbroken b) : Unbroken (a ++ b) := by
  unfold Unbroken
  rw [String.toList_append, List.mem_append]
  exact fun h => h.elim ha hb

/-- What does not end a line may stand before one. -/
theorem IsLine.prepend {head line : String} (hhead : Unbroken head) (hline : IsLine line) :
    IsLine (head ++ line) := by
  constructor
  -- the line still ends the text, and its end is still the only one
  · rw [String.toList_append, List.getLast?_append, hline.ends]
    rfl
  · rw [String.toList_append, List.count_append, List.count_eq_zero_of_not_mem hhead, hline.once]

/-! ## Messages -/

/-- The text begins to say that there was an error, and has not come to the end of the line. -/
structure BeginsError (text : String) : Prop where
  begins : "Error: ".toList <+: text.toList
  unbroken : Unbroken text

/-- The text is one line, which says that there was an error. -/
structure IsErrorLine (text : String) : Prop where
  begins : "Error: ".toList <+: text.toList
  line : IsLine text

instance (text : String) : Decidable (BeginsError text) :=
  decidable_of_iff ("Error: ".toList <+: text.toList ∧ Unbroken text)
    ⟨fun h => ⟨h.1, h.2⟩, fun h => ⟨h.begins, h.unbroken⟩⟩

namespace BeginsError

variable {head : String}

/-- A report that has begun goes on with what does not end the line. -/
theorem append (h : BeginsError head) {next : String} (hnext : Unbroken next) :
    BeginsError (head ++ next) := by
  refine ⟨?_, h.unbroken.append hnext⟩
  rw [String.toList_append]
  exact h.begins.trans (List.prefix_append _ _)

/-- What is begun ends with the line. -/
theorem line (h : BeginsError head) {last : String} (hlast : IsLine last) :
    IsErrorLine (head ++ last) := by
  refine ⟨?_, hlast.prepend h.unbroken⟩
  rw [String.toList_append]
  exact h.begins.trans (List.prefix_append _ _)

end BeginsError

/-- **The report of a defect is one line**, which begins as every report of an error does. -/
theorem isErrorLine_message (defect : Defect Float) : IsErrorLine defect.message := by
  have hspan : BeginsError "Error: span " := by decide +kernel
  cases defect with
  | reservedId => exact ⟨by decide +kernel, by decide +kernel⟩
  | reversed id start finish =>
    -- from the last words back: the start, the words before it, the finish, the id
    apply BeginsError.line _ (by decide +kernel)
    apply BeginsError.append _ (unbroken_general _ start)
    apply BeginsError.append _ (by decide +kernel)
    apply BeginsError.append _ (unbroken_general _ finish)
    apply BeginsError.append _ (by decide +kernel)
    exact hspan.append (unbroken_toString_word id)
  | duplicate id =>
    apply BeginsError.line _ (by decide +kernel)
    apply BeginsError.append _ (unbroken_toString_word id)
    decide +kernel
  | ownParent id =>
    apply BeginsError.line _ (by decide +kernel)
    exact hspan.append (unbroken_toString_word id)
  | unknownParent id parent =>
    apply BeginsError.line _ (by decide +kernel)
    apply BeginsError.append _ (unbroken_toString_word parent)
    apply BeginsError.append _ (by decide +kernel)
    exact hspan.append (unbroken_toString_word id)
  | rootCount count =>
    apply BeginsError.line _ (by decide +kernel)
    apply BeginsError.append _ (unbroken_toString count)
    decide +kernel
  | tooDeep id depth =>
    apply BeginsError.line _ (by decide +kernel)
    apply BeginsError.append _ (unbroken_toString _)
    apply BeginsError.append _ (by decide +kernel)
    apply BeginsError.append _ (unbroken_toString depth)
    apply BeginsError.append _ (by decide +kernel)
    exact hspan.append (unbroken_toString_word id)
  | unreachable count root =>
    apply BeginsError.line _ (by decide +kernel)
    apply BeginsError.append _ (unbroken_toString_word root)
    apply BeginsError.append _ (by decide +kernel)
    apply BeginsError.append _ (unbroken_toString_word count)
    decide +kernel

/-- So is the report that the output is lost. -/
theorem isErrorLine_outputLost : IsErrorLine Command.outputLost :=
  ⟨by decide +kernel, by decide +kernel⟩

/-- What is reported of a layout that was drawn is one line. -/
theorem isLine_summary (layout : Layout Float) : IsLine (Command.summary layout) := by
  apply IsLine.prepend _ (by decide +kernel)
  apply Unbroken.append _ (unbroken_general _ _)
  apply Unbroken.append _ (by decide +kernel)
  apply Unbroken.append _ (unbroken_general _ _)
  apply Unbroken.append _ (by decide +kernel)
  apply Unbroken.append _ (unbroken_toString _)
  apply Unbroken.append _ (by decide +kernel)
  apply Unbroken.append _ (unbroken_toString _)
  apply Unbroken.append _ (by decide +kernel)
  apply Unbroken.append _ (unbroken_toString _)
  decide +kernel

end SpanChart
