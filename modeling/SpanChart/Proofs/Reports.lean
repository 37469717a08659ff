/-
  REPORTS — what is wrong with a trace can be told from the line that is printed.

  A report is fixed words with numbers between them: ids and counts with all their digits, times
  with six.  Two reports with the same text are of the same kind of defect, point at the same spans
  and give the same counts, and their times look the same (`message_eq_iff`).

  1. `filter_spell` — numbers are written with few characters, so what is left of a report without
     these is left of its fixed words alone.  What is left is another for each kind of defect, which
     is decided for each two of them.

  2. `numbers_eq` — where the words are the same, so are the numbers between them: a number ends
     where the words after it begin, with a character that is in no number.
-/
import SpanChart.Proofs.Decoding

namespace SpanChart

open Numeral (general readable Used)

/-! ## Words and numbers -/

/-- Whether a character is in no number. -/
def outside (c : Char) : Bool := !decide (Used c)

theorem outside_eq_false {c : Char} (h : Used c) : outside c = false := by
  rw [outside, decide_eq_true h]
  rfl

/-- Words, and then numbers with the words after each of them. -/
def spell (first : String) (written : List (String × String)) : String :=
  written.foldl (fun text p => text ++ p.1 ++ p.2) first

/-- A number, and words that begin with a character that is in no number. -/
structure Numbered (p : String × String) : Prop where
  used : ∀ c ∈ p.1.toList, Used c
  ended : p.2.toList.head?.any outside = true

variable {first : String} {written written' : List (String × String)}

theorem toList_spell (first : String) (written : List (String × String)) :
    (spell first written).toList =
      first.toList ++ joined (written.map fun p => (p.1.toList, p.2.toList)) := by
  induction written generalizing first with
  | nil => exact (List.append_nil _).symm
  | cons p written ih =>
    show (spell (first ++ p.1 ++ p.2) written).toList = _
    rw [ih, String.toList_append, String.toList_append, List.map_cons, joined, joined,
      List.flatMap_cons, List.append_assoc, List.append_assoc, List.append_assoc]

/-- **Without the characters of numbers only words are left.** -/
theorem filter_spell (h : ∀ p ∈ written, Numbered p) :
    (spell first written).toList.filter outside =
      (first.toList ++ written.flatMap fun p => p.2.toList).filter outside := by
  rw [toList_spell, List.filter_append, List.filter_append]
  congr 1
  induction written with
  | nil => rfl
  | cons p written ih =>
    have hnumber : p.1.toList.filter outside = [] := by
      rw [List.filter_eq_nil_iff]
      intro c hc
      rw [outside_eq_false ((h p List.mem_cons_self).used c hc)]
      exact Bool.false_ne_true
    have hrest := ih fun q hq => h q (List.mem_cons_of_mem p hq)
    rw [joined] at hrest ⊢
    rw [List.map_cons, List.flatMap_cons, List.flatMap_cons, List.filter_append,
      List.filter_append, List.filter_append, hnumber, hrest, List.nil_append]

theorem ended_of_numbered (h : ∀ p ∈ written, Numbered p) :
    ∀ p ∈ written.map fun p => (p.1.toList, p.2.toList), Ended p := by
  intro p hp
  obtain ⟨q, hq, rfl⟩ := List.mem_map.1 hp
  obtain ⟨mark, hhead, hmark⟩ := (Option.any_eq_true ..).1 (h q hq).ended
  refine ⟨mark, hhead, fun hmem => ?_⟩
  rw [outside_eq_false ((h q hq).used mark hmem)] at hmark
  cases hmark

/-- **Between the same words the same text has the same numbers.** -/
theorem numbers_eq (h : ∀ p ∈ written, Numbered p) (h' : ∀ p ∈ written', Numbered p)
    (hwords : written.map Prod.snd = written'.map Prod.snd)
    (htext : spell first written = spell first written') :
    written.map Prod.fst = written'.map Prod.fst := by
  have hfields := rowFields_eq first.toList (ended_of_numbered h) []
  have hfields' := rowFields_eq first.toList (ended_of_numbered h') []
  rw [← toList_spell, List.map_map] at hfields hfields'
  have hafter : written.map (Prod.snd ∘ fun p => (p.1.toList, p.2.toList)) =
      written'.map (Prod.snd ∘ fun p => (p.1.toList, p.2.toList)) := by
    have hchars := congrArg (List.map String.toList) hwords
    rwa [List.map_map, List.map_map] at hchars
  -- both texts are read with the same words, so what is found in them is the same
  rw [hafter, htext, hfields'] at hfields
  have hfound := (Prod.mk.inj (Option.some.inj hfields)).1
  rw [List.map_map, List.map_map] at hfound
  have hnumbers : (written'.map Prod.fst).map String.toList =
      (written.map Prod.fst).map String.toList := by
    rw [List.map_map, List.map_map]
    exact hfound
  exact (List.map_injective_iff.2 (fun _ _ => String.toList_injective) hnumbers).symm

theorem numbered_cons {number words : String} (hused : ∀ c ∈ number.toList, Used c)
    (hended : words.toList.head?.any outside = true) (h : ∀ p ∈ written, Numbered p) :
    ∀ p ∈ (number, words) :: written, Numbered p := by
  rw [List.forall_mem_cons]
  exact ⟨⟨hused, hended⟩, h⟩

theorem used_toString (n : Nat) : ∀ c ∈ (toString n).toList, Used c :=
  fun _ => Numeral.used_of_mem_toString

theorem used_toString_word (w : UInt64) : ∀ c ∈ (toString w).toList, Used c :=
  used_toString w.toNat

/-- All digits of an id tell it apart. -/
theorem toString_word_injective {v w : UInt64} (h : toString v = toString w) : v = w := by
  have hnat : v.toNat.repr = w.toNat.repr := h
  exact UInt64.toNat_inj.1 (Nat.repr_injective hnat)

/-! ## Defects -/

namespace Defect

/-- The same defect with other times, or times written in some way. -/
def map {α β : Type} (f : α → β) : Defect α → Defect β
  | reservedId => reservedId
  | reversed id start finish => reversed id (f start) (f finish)
  | duplicate id => duplicate id
  | ownParent id => ownParent id
  | unknownParent id parent => unknownParent id parent
  | rootCount count => rootCount count
  | tooDeep id depth => tooDeep id depth
  | unreachable count root => unreachable count root

/-- The words that a report begins with. -/
def opening {α : Type} : Defect α → String
  | reservedId => "Error: span id 0 is reserved for \"no parent\"\n"
  | reversed .. | ownParent _ | unknownParent .. | tooDeep .. => "Error: span "
  | duplicate _ => "Error: duplicate span id "
  | rootCount _ => "Error: expected exactly one root span, found "
  | unreachable .. => "Error: "

/-- The numbers of a report, each with the words after it. -/
def numbers : Defect String → List (String × String)
  | reservedId => []
  | reversed id start finish =>
    [(toString id, " ends ("), (finish, ") before it starts ("), (start, ")\n")]
  | duplicate id => [(toString id, "\n")]
  | ownParent id => [(toString id, " is its own parent\n")]
  | unknownParent id parent =>
    [(toString id, " references unknown parent "), (toString parent, "\n")]
  | rootCount count => [(toString count, "\n")]
  | tooDeep id depth =>
    [(toString id, " is nested "), (toString depth, " levels deep (limit "),
      (toString nestingLimit, ")\n")]
  | unreachable count root =>
    [(toString count, " span(s) are not descendants of root "),
      (toString root, " (parent cycle)\n")]

/-- A report is spelled from the defect with its times written out. -/
theorem message_eq (d : Defect Float) :
    d.message = spell (d.map (general readable)).opening (d.map (general readable)).numbers := by
  cases d <;> rfl

/-- What stands between the words of a report has only characters of numbers in it. -/
theorem numbered_numbers (d : Defect Float) :
    ∀ p ∈ (d.map (general readable)).numbers, Numbered p := by
  have hgeneral : ∀ x : Float, ∀ c ∈ (general readable x).toList, Used c :=
    fun _ _ => Numeral.used_of_mem_general
  cases d with
  | reservedId => exact List.forall_mem_nil _
  | reversed id start finish =>
    apply numbered_cons (used_toString_word id) (by decide +kernel)
    apply numbered_cons (hgeneral finish) (by decide +kernel)
    exact numbered_cons (hgeneral start) (by decide +kernel) (List.forall_mem_nil _)
  | duplicate id | ownParent id =>
    exact numbered_cons (used_toString_word id) (by decide +kernel) (List.forall_mem_nil _)
  | unknownParent id other | unreachable id other =>
    apply numbered_cons (used_toString_word id) (by decide +kernel)
    exact numbered_cons (used_toString_word other) (by decide +kernel) (List.forall_mem_nil _)
  | rootCount count =>
    exact numbered_cons (used_toString count) (by decide +kernel) (List.forall_mem_nil _)
  | tooDeep id depth =>
    apply numbered_cons (used_toString_word id) (by decide +kernel)
    apply numbered_cons (used_toString depth) (by decide +kernel)
    exact numbered_cons (used_toString nestingLimit) (by decide +kernel) (List.forall_mem_nil _)

/-- A defect of the same kind, with nothing filled in. -/
def blank : Defect String → Defect String
  | reservedId => reservedId
  | reversed .. => reversed 0 "" ""
  | duplicate _ => duplicate 0
  | ownParent _ => ownParent 0
  | unknownParent .. => unknownParent 0 0
  | rootCount _ => rootCount 0
  | tooDeep .. => tooDeep 0 0
  | unreachable .. => unreachable 0 0

/-- What is left of a report without the characters of numbers. -/
def remains (d : Defect String) : List Char :=
  (d.opening.toList ++ d.numbers.flatMap fun p => p.2.toList).filter outside

/-- The words of a report are those of its kind. -/
theorem remains_blank (d : Defect String) : d.blank.remains = d.remains := by
  cases d <;> rfl

/-- A defect of each kind. -/
def kinds : List (Defect String) :=
  [reservedId, reversed 0 "" "", duplicate 0, ownParent 0, unknownParent 0 0, rootCount 0,
    tooDeep 0 0, unreachable 0 0]

theorem blank_mem_kinds (d : Defect String) : d.blank ∈ kinds := by
  cases d <;> simp [blank, kinds]

/-- **The words of a report tell the kind of defect.** -/
theorem blank_eq_of_remains_eq {d e : Defect String} (h : d.remains = e.remains) :
    d.blank = e.blank := by
  have hkinds : ∀ k ∈ kinds, ∀ l ∈ kinds, k.remains = l.remains → k = l := by decide +kernel
  rw [← remains_blank d, ← remains_blank e] at h
  exact hkinds _ d.blank_mem_kinds _ e.blank_mem_kinds h

/-- A defect can be told from what is spelled for it. -/
theorem eq_of_spell_eq {d e : Defect String} (hd : ∀ p ∈ d.numbers, Numbered p)
    (he : ∀ p ∈ e.numbers, Numbered p) (h : spell d.opening d.numbers = spell e.opening e.numbers) :
    d = e := by
  have hkind : d.blank = e.blank := by
    apply blank_eq_of_remains_eq
    rw [remains, remains, ← filter_spell hd, ← filter_spell he, h]
  -- of one kind, both have the same words, and so the same numbers between them
  cases d with
  | reservedId =>
    cases e with
    | reservedId => rfl
    | _ => cases hkind
  | reversed id start finish =>
    cases e with
    | reversed id' start' finish' =>
      have hnumbers := numbers_eq hd he rfl h
      simp only [numbers, List.map_cons, List.cons.injEq] at hnumbers
      obtain ⟨hid, rfl, rfl, -⟩ := hnumbers
      rw [toString_word_injective hid]
    | _ => cases hkind
  | duplicate id =>
    cases e with
    | duplicate id' =>
      have hnumbers := numbers_eq hd he rfl h
      rw [toString_word_injective (List.cons.inj hnumbers).1]
    | _ => cases hkind
  | ownParent id =>
    cases e with
    | ownParent id' =>
      have hnumbers := numbers_eq hd he rfl h
      rw [toString_word_injective (List.cons.inj hnumbers).1]
    | _ => cases hkind
  | unknownParent id parent =>
    cases e with
    | unknownParent id' parent' =>
      have hnumbers := numbers_eq hd he rfl h
      simp only [numbers, List.map_cons, List.cons.injEq] at hnumbers
      rw [toString_word_injective hnumbers.1, toString_word_injective hnumbers.2.1]
    | _ => cases hkind
  | rootCount count =>
    cases e with
    | rootCount count' =>
      have hnumbers := numbers_eq hd he rfl h
      rw [Nat.repr_injective (List.cons.inj hnumbers).1]
    | _ => cases hkind
  | tooDeep id depth =>
    cases e with
    | tooDeep id' depth' =>
      have hnumbers := numbers_eq hd he rfl h
      simp only [numbers, List.map_cons, List.cons.injEq] at hnumbers
      rw [toString_word_injective hnumbers.1, Nat.repr_injective hnumbers.2.1]
    | _ => cases hkind
  | unreachable count root =>
    cases e with
    | unreachable count' root' =>
      have hnumbers := numbers_eq hd he rfl h
      simp only [numbers, List.map_cons, List.cons.injEq] at hnumbers
      rw [toString_word_injective hnumbers.1, toString_word_injective hnumbers.2.1]
    | _ => cases hkind

/-- **A report shows its defect**: what kind it is, the ids and the counts, and the times as far as
    they are written out. -/
theorem message_eq_iff {d e : Defect Float} :
    d.message = e.message ↔ d.map (general readable) = e.map (general readable) := by
  rw [message_eq, message_eq]
  constructor
  · exact eq_of_spell_eq d.numbered_numbers e.numbered_numbers
  · intro h
    rw [h]

/-- Where no times are reported, nothing of a defect is lost in its report. -/
theorem eq_of_message_eq {d e : Defect Float}
    (htimeless : ∀ id start finish, d ≠ .reversed id start finish) (h : d.message = e.message) :
    d = e := by
  have hmap := message_eq_iff.1 h
  cases d with
  | reversed id start finish => exact absurd rfl (htimeless id start finish)
  | _ => cases e <;> simp_all [map]

end Defect

end SpanChart
