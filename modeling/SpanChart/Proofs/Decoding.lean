/-
  DECODING — what was drawn can be told from the text alone.

  Nothing is quoted in the text of a drawing, and a colour may contain anything that stands around
  it, an end of line or the beginning of an element too.  The text can be taken apart all the same,
  if no colour has the character that ends an attribute.  A row is fixed words with fields between
  them, and a field ends where the first character of the next word comes, which is not in the field
  (`fields_eq`).  Only the colour of lines does not end like that, since the width of lines follows
  it in the same attribute: it is read from the end, where the words between the two come before the
  colour has begun (`pen?_eq`).

  Numbers have no blank in them and no quote, whatever they are, and seventeen digits tell them
  apart.  So each field is one number again or one colour, each row what it was written for, and the
  rows of a kind are all that there are before the first of another kind (`readAll_eq`).
-/
import SpanChart.Proofs.Faithful
import SpanChart.Proofs.Writing

namespace SpanChart

open Numeral (general faithful Used)

/-! ## Fields -/

/-- What stands before each of the words, which come one after the other, and what follows the last
    of them.  A field ends before the first character of its word, so only that character must not
    be in it; the others may. -/
def fields : List (List Char) → List Char → Option (List (List Char) × List Char)
  | [], text => some ([], text)
  | word :: words, text => do
    let mark ← word.head?
    let rest ← (text.dropWhile (· != mark)).dropPrefix? word
    let (found, rest) ← fields words rest
    return (text.takeWhile (· != mark) :: found, rest)

/-- The fields of a row, which begins with a word. -/
def rowFields (first : List Char) (words : List (List Char)) (text : List Char) :
    Option (List (List Char) × List Char) := do
  fields words (← text.dropPrefix? first)

/-- A field and the word after it: what the word begins with is not in the field. -/
def Ended (p : List Char × List Char) : Prop := ∃ mark, p.2.head? = some mark ∧ mark ∉ p.1

theorem ended_of_notMem {field word : List Char} {mark : Char} (hfield : mark ∉ field)
    (hword : word.head? = some mark) : Ended (field, word) := ⟨mark, hword, hfield⟩

/-- Fields and the words after them. -/
def joined (written : List (List Char × List Char)) : List Char :=
  written.flatMap fun p => p.1 ++ p.2

/-- **Fields are found where they are**, if none has the character that ends it. -/
theorem fields_eq {written : List (List Char × List Char)} (h : ∀ p ∈ written, Ended p)
    (rest : List Char) :
    fields (written.map Prod.snd) (joined written ++ rest) =
      some (written.map Prod.fst, rest) := by
  induction written with
  | nil => rfl
  | cons p written ih =>
    obtain ⟨field, word⟩ := p
    obtain ⟨mark, hhead, hmark⟩ := h _ List.mem_cons_self
    have hhead : word.head? = some mark := hhead
    obtain ⟨tail, hword⟩ := List.head?_eq_some_iff.1 hhead
    -- the first character of the word is met where the word is, and not in the field
    have hbefore : ∀ c ∈ field, (c != mark) = true := by
      intro c hc
      rw [bne_iff_ne]
      rintro rfl
      exact hmark hc
    have htext : joined ((field, word) :: written) ++ rest =
        field ++ (word ++ (joined written ++ rest)) := by
      simp only [joined, List.flatMap_cons, List.append_assoc]
    have hrest := ih fun p hp => h p (List.mem_cons_of_mem _ hp)
    generalize joined written ++ rest = text at htext hrest
    have htake : (field ++ (word ++ text)).takeWhile (· != mark) = field := by
      rw [List.takeWhile_append_of_pos hbefore, hword, List.cons_append,
        List.takeWhile_cons_of_neg (by simp), List.append_nil]
    have hdrop : (field ++ (word ++ text)).dropWhile (· != mark) = word ++ text := by
      rw [List.dropWhile_append_of_pos hbefore, hword, List.cons_append,
        List.dropWhile_cons_of_neg (by simp)]
    -- one field is taken and its word dropped, and the rest is read as before
    rw [htext, List.map_cons, fields, hhead, Option.bind_eq_bind, Option.bind_some, hdrop,
      List.dropPrefix?_append_of_beq _ (beq_self_eq_true _), htake]
    show (fields (written.map Prod.snd) text >>= fun found => _) = _
    rw [hrest]
    rfl

/-- A row is read in the same way, once its first words are dropped. -/
theorem rowFields_eq (first : List Char) {written : List (List Char × List Char)}
    (h : ∀ p ∈ written, Ended p) (rest : List Char) :
    rowFields first (written.map Prod.snd) (first ++ joined written ++ rest) =
      some (written.map Prod.fst, rest) := by
  rw [rowFields, List.append_assoc, List.dropPrefix?_append_of_beq _ (beq_self_eq_true _)]
  exact fields_eq h rest

/-! ## Numbers -/

/-- The number that the characters are the text of.  There is no more than one (`numberOf_general`),
    so how it is found does not matter, and no reader of numbers is needed. -/
noncomputable def numberOf (text : List Char) : Float :=
  Classical.epsilon fun x => x.isNaN = false ∧ (general faithful x).toList = text

/-- **A number is read back from its text.** -/
theorem numberOf_general {x : Float} (hx : x.isNaN = false) :
    numberOf (general faithful x).toList = x := by
  have hfound : ∃ y : Float, y.isNaN = false ∧ (general faithful y).toList =
      (general faithful x).toList := ⟨x, hx, rfl⟩
  obtain ⟨hy, hsame⟩ := Classical.epsilon_spec hfound
  -- whichever number is chosen has the same text, and with all digits that is the number itself
  exact Numeral.general_faithful_injective hy hx (String.toList_injective hsame)

/-- A number is ended by what it is not written with: a blank, a quote or a colon. -/
theorem ended_general (x : Float) {mark : Char} {word : List Char} (hmark : ¬Used mark)
    (hword : word.head? = some mark) : Ended ((general faithful x).toList, word) :=
  ended_of_notMem (fun hmem => hmark (Numeral.used_of_mem_general hmem)) hword

/-! ## Rows of a kind -/

/-- Everything that can be read one after the other, and what follows.  Reading goes on only where
    it has taken something, so that it comes to an end whatever `read` does. -/
def readAll {β : Type} (read : List Char → Option (β × List Char)) (text : List Char) :
    List β × List Char :=
  match read text with
  | none => ([], text)
  | some (x, rest) =>
    if rest.length < text.length then
      let (xs, rest) := readAll read rest
      (x :: xs, rest)
    else ([], text)
termination_by text.length

/-- **Rows are read in order and to the last.** -/
theorem readAll_eq {β : Type} {read : List Char → Option (β × List Char)}
    {write : β → List Char} {xs : List β}
    (hread : ∀ x ∈ xs, write x ≠ [] ∧ ∀ rest, read (write x ++ rest) = some (x, rest))
    {rest : List Char} (hrest : read rest = none) :
    readAll read (xs.flatMap write ++ rest) = (xs, rest) := by
  induction xs with
  | nil => rw [List.flatMap_nil, List.nil_append, readAll, hrest]
  | cons x xs ih =>
    obtain ⟨hne, hx⟩ := hread x List.mem_cons_self
    -- what is written is not empty, so reading it leaves less
    have hlength := List.length_pos_iff.2 hne
    rw [List.flatMap_cons, List.append_assoc, readAll, hx]
    have hshorter : (xs.flatMap write ++ rest).length <
        (write x ++ (xs.flatMap write ++ rest)).length := by
      simp only [List.length_append]
      omega
    simp only [if_pos hshorter, ih fun y hy => hread y (List.mem_cons_of_mem x hy)]

/-! ## The rows of a drawing -/

/-- The viewport that the root element gives. -/
noncomputable def viewport? (text : List Char) : Option (Extent Float × List Char) := do
  let (found, rest) ← rowFields "<svg version=\"1.1\" viewBox=\"0 0 ".toList
    [" ".toList, "\" xmlns=\"http://www.w3.org/2000/svg\">\n".toList] text
  match found with
  | [width, height] => some (⟨numberOf width, numberOf height⟩, rest)
  | _ => none

/-- A rectangle that the text begins with. -/
noncomputable def rect? (text : List Char) : Option (Rect Float × List Char) := do
  let (found, rest) ← rowFields "<rect width=\"".toList
    ["\" height=\"".toList, "\" x=\"".toList, "\" y=\"".toList, "\" style=\"fill:".toList,
      "\"/>\n".toList] text
  match found with
  | [width, height, x, y, color] =>
    some (⟨⟨numberOf width, numberOf height⟩, ⟨numberOf x, numberOf y⟩, String.ofList color⟩, rest)
  | _ => none

/-- The colour and the width of a line, which share an attribute and are told apart from its end. -/
noncomputable def pen? (style : List Char) : Option (String × Float) := do
  let (found, rest) ← fields [";stroke-width:".toList.reverse] style.reverse
  match found with
  | [width] => some (String.ofList rest.reverse, numberOf width.reverse)
  | _ => none

/-- A line that the text begins with. -/
noncomputable def line? (text : List Char) :
    Option ((Link Float × String × Float) × List Char) := do
  let (found, rest) ← rowFields "<line x1=\"".toList
    ["\" y1=\"".toList, "\" x2=\"".toList, "\" y2=\"".toList, "\" style=\"stroke:".toList,
      "\"/>\n".toList] text
  match found with
  | [x1, y1, x2, y2, style] =>
    let pen ← pen? style
    return ((⟨⟨numberOf x1, numberOf y1⟩, ⟨numberOf x2, numberOf y2⟩⟩, pen), rest)
  | _ => none

/-- Whether a piece is a number that is none. -/
def Piece.isNaN : Piece Float → Bool
  | .text _ => false
  | .number x => x.isNaN

/-- Every number among the pieces is one. -/
def Numbers (pieces : List (Piece Float)) : Prop := ∀ piece ∈ pieces, piece.isNaN = false

instance : DecidablePred Numbers := fun _ => inferInstanceAs (Decidable (∀ _ ∈ _, _))

/-- A number that is printed is read back. -/
theorem Numbers.numberOf_eq {pieces : List (Piece Float)} (h : Numbers pieces) {x : Float}
    (hx : Piece.number x ∈ pieces) : numberOf (general faithful x).toList = x :=
  numberOf_general (h _ hx)

section Heads

variable {d : Drawing Float}

/-- The fields of the root element and the words after them. -/
def Drawing.headWritten (d : Drawing Float) : List (List Char × List Char) :=
  [((general faithful d.viewport.width).toList, " ".toList),
    ((general faithful d.viewport.height).toList,
      "\" xmlns=\"http://www.w3.org/2000/svg\">\n".toList)]

theorem Drawing.chars_headPieces :
    chars d.headPieces = "<svg version=\"1.1\" viewBox=\"0 0 ".toList ++ joined d.headWritten := by
  simp [chars, Drawing.headPieces, Piece.render, joined, Drawing.headWritten]

theorem Drawing.ended_headWritten : ∀ p ∈ d.headWritten, Ended p := by
  have hblank : ¬Used ' ' := by decide
  have hquote : ¬Used '"' := by decide
  simp only [Drawing.headWritten, List.forall_mem_cons]
  exact ⟨ended_general _ hblank (by decide +kernel), ended_general _ hquote (by decide +kernel),
    List.forall_mem_nil _⟩

/-- **The viewport is read back from the root element.** -/
theorem viewport?_eq (hnumbers : Numbers d.headPieces) (rest : List Char) :
    viewport? (chars d.headPieces ++ rest) = some (d.viewport, rest) := by
  -- the numbers are read back one by one, and the words find the fields they stand in
  have hwidth := hnumbers.numberOf_eq (x := d.viewport.width) (by simp [Drawing.headPieces])
  have hheight := hnumbers.numberOf_eq (x := d.viewport.height) (by simp [Drawing.headPieces])
  have hfields := rowFields_eq "<svg version=\"1.1\" viewBox=\"0 0 ".toList
    (Drawing.ended_headWritten (d := d)) rest
  unfold viewport?
  rw [Drawing.chars_headPieces]
  refine (congrArg (· >>= _) hfields).trans ?_
  show some (Extent.mk (numberOf _) (numberOf _), rest) = _
  rw [hwidth, hheight]

end Heads

section Rectangles

variable {r : Rect Float}

/-- The fields of a rectangle and the words between them. -/
def Rect.written (r : Rect Float) : List (List Char × List Char) :=
  [((general faithful r.extent.width).toList, "\" height=\"".toList),
    ((general faithful r.extent.height).toList, "\" x=\"".toList),
    ((general faithful r.corner.x).toList, "\" y=\"".toList),
    ((general faithful r.corner.y).toList, "\" style=\"fill:".toList),
    (r.color.toList, "\"/>\n".toList)]

theorem Rect.chars_pieces : chars r.pieces = "<rect width=\"".toList ++ joined r.written := by
  simp [chars, Rect.pieces, Piece.render, joined, Rect.written]

/-- A quote ends each field of a rectangle, its colour as well. -/
theorem Rect.ended_written (hcolor : '"' ∉ r.color.toList) : ∀ p ∈ r.written, Ended p := by
  have hquote : ¬Used '"' := by decide
  simp only [Rect.written, List.forall_mem_cons]
  refine ⟨ended_general _ hquote (by decide +kernel),
    ended_general _ hquote (by decide +kernel),
    ended_general _ hquote (by decide +kernel),
    ended_general _ hquote (by decide +kernel),
    ended_of_notMem hcolor (by decide +kernel), List.forall_mem_nil _⟩

/-- **A rectangle is read back from its row.** -/
theorem rect?_eq (hcolor : '"' ∉ r.color.toList) (hnumbers : Numbers r.pieces)
    (rest : List Char) : rect? (chars r.pieces ++ rest) = some (r, rest) := by
  have hwidth := hnumbers.numberOf_eq (x := r.extent.width) (by simp [Rect.pieces])
  have hheight := hnumbers.numberOf_eq (x := r.extent.height) (by simp [Rect.pieces])
  have hx := hnumbers.numberOf_eq (x := r.corner.x) (by simp [Rect.pieces])
  have hy := hnumbers.numberOf_eq (x := r.corner.y) (by simp [Rect.pieces])
  have hfields := rowFields_eq "<rect width=\"".toList (Rect.ended_written hcolor) rest
  unfold rect?
  rw [Rect.chars_pieces]
  refine (congrArg (· >>= _) hfields).trans ?_
  show some (Rect.mk ⟨numberOf _, numberOf _⟩ ⟨numberOf _, numberOf _⟩ (String.ofList _), rest) = _
  rw [hwidth, hheight, hx, hy, String.ofList_toList]

end Rectangles

/-- **The width of lines is found from the end**, whatever their colour is. -/
theorem pen?_eq (color : String) {width : Float} (hwidth : width.isNaN = false) :
    pen? (color.toList ++ ";stroke-width:".toList ++ (general faithful width).toList) =
      some (color, width) := by
  have hcolon : ¬Used ':' := by decide
  -- read backwards, the width comes first, and then the words, which end with a colon
  have hwidth' : ':' ∉ (general faithful width).toList.reverse := fun hmem =>
    hcolon (Numeral.used_of_mem_general (List.mem_reverse.1 hmem))
  have hended : ∀ p ∈ [((general faithful width).toList.reverse, ";stroke-width:".toList.reverse)],
      Ended p := by
    rw [List.forall_mem_singleton]
    exact ended_of_notMem hwidth' (by decide +kernel)
  have hfields := fields_eq hended color.toList.reverse
  unfold pen?
  rw [List.reverse_append, List.reverse_append, ← List.append_assoc]
  rw [joined, List.flatMap_singleton] at hfields
  refine (congrArg (· >>= _) hfields).trans ?_
  show some (String.ofList color.toList.reverse.reverse, numberOf _) = _
  rw [List.reverse_reverse, List.reverse_reverse, numberOf_general hwidth, String.ofList_toList]

section Lines

variable {d : Drawing Float} {l : Link Float}

/-- The fields of a line and the words between them. -/
def Drawing.written (d : Drawing Float) (l : Link Float) : List (List Char × List Char) :=
  [((general faithful l.source.x).toList, "\" y1=\"".toList),
    ((general faithful l.source.y).toList, "\" x2=\"".toList),
    ((general faithful l.target.x).toList, "\" y2=\"".toList),
    ((general faithful l.target.y).toList, "\" style=\"stroke:".toList),
    (d.lineColor.toList ++ ";stroke-width:".toList ++ (general faithful d.lineWidth).toList,
      "\"/>\n".toList)]

theorem Drawing.chars_linePieces :
    chars (d.linePieces l) = "<line x1=\"".toList ++ joined (d.written l) := by
  simp [chars, Drawing.linePieces, Piece.render, joined, Drawing.written]

/-- A quote ends each field of a line, and the last one has the colour and the width in it. -/
theorem Drawing.ended_written (hcolor : '"' ∉ d.lineColor.toList) :
    ∀ p ∈ d.written l, Ended p := by
  have hquote : ¬Used '"' := by decide
  have hwords : '"' ∉ ";stroke-width:".toList := by decide +kernel
  -- colour, words and width are one field, which the quote after them ends
  have hstyle : '"' ∉ d.lineColor.toList ++ ";stroke-width:".toList ++
      (general faithful d.lineWidth).toList := by
    rw [List.mem_append, List.mem_append]
    rintro ((hmem | hmem) | hmem)
    · exact hcolor hmem
    · exact hwords hmem
    · exact hquote (Numeral.used_of_mem_general hmem)
  simp only [Drawing.written, List.forall_mem_cons]
  refine ⟨ended_general _ hquote (by decide +kernel),
    ended_general _ hquote (by decide +kernel),
    ended_general _ hquote (by decide +kernel),
    ended_general _ hquote (by decide +kernel),
    ended_of_notMem hstyle (by decide +kernel), List.forall_mem_nil _⟩

/-- **A line is read back from its row**, and so is the pen it was drawn with. -/
theorem line?_eq (hcolor : '"' ∉ d.lineColor.toList) (hnumbers : Numbers (d.linePieces l))
    (rest : List Char) :
    line? (chars (d.linePieces l) ++ rest) = some ((l, d.lineColor, d.lineWidth), rest) := by
  have hx1 := hnumbers.numberOf_eq (x := l.source.x) (by simp [Drawing.linePieces])
  have hy1 := hnumbers.numberOf_eq (x := l.source.y) (by simp [Drawing.linePieces])
  have hx2 := hnumbers.numberOf_eq (x := l.target.x) (by simp [Drawing.linePieces])
  have hy2 := hnumbers.numberOf_eq (x := l.target.y) (by simp [Drawing.linePieces])
  have hwidth := hnumbers (.number d.lineWidth) (by simp [Drawing.linePieces])
  have hpen := pen?_eq d.lineColor hwidth
  have hfields := rowFields_eq "<line x1=\"".toList (Drawing.ended_written hcolor (l := l)) rest
  unfold line?
  rw [Drawing.chars_linePieces]
  refine (congrArg (· >>= _) hfields).trans ?_
  show (pen? (d.lineColor.toList ++ _ ++ _) >>= fun pen =>
    some ((Link.mk ⟨numberOf _, numberOf _⟩ ⟨numberOf _, numberOf _⟩, pen), rest)) = _
  rw [hpen, hx1, hy1, hx2, hy2]
  rfl

end Lines

/-! ## Pictures -/

/-- What the text of a drawing tells. -/
structure Picture where
  viewport : Extent Float
  rects : List (Rect Float)
  lines : List (Link Float)
  /-- The colour and the width of the lines, if there are any. -/
  pen : Option (String × Float)
  deriving DecidableEq

/-- Takes the text of a drawing apart. -/
noncomputable def Picture.decode (text : String) : Option Picture := do
  let (viewport, rest) ← viewport? text.toList
  let (rects, rest) := readAll rect? rest
  let (lines, rest) := readAll line? rest
  if rest = "</svg>\n".toList then
    some ⟨viewport, rects, lines.map Prod.fst, lines.head?.map Prod.snd⟩
  else none

/-- A row of another kind begins otherwise. -/
theorem rowFields_eq_none {first word : List Char} (words : List (List Char))
    (hfirst : 2 ≤ first.length) (hword : 2 ≤ word.length) (hne : first.take 2 ≠ word.take 2)
    (rest : List Char) : rowFields first words (word ++ rest) = none := by
  have hdrop : (word ++ rest).dropPrefix? first = none := by
    cases hsome : (word ++ rest).dropPrefix? first with
    | none => rfl
    | some after =>
      -- two characters are enough: no two kinds of rows begin with the same two
      obtain ⟨first', htext, hsame⟩ := List.dropPrefix?_eq_some_iff.1 hsome
      obtain rfl : first' = first := beq_iff_eq.1 hsame
      have htake := congrArg (List.take 2) htext
      rw [List.take_append_of_le_length hword, List.take_append_of_le_length hfirst] at htake
      exact absurd htake.symm hne
  rw [rowFields, hdrop]
  rfl

theorem rect?_eq_none (word : List Char) (hword : 2 ≤ word.length)
    (hne : "<rect width=\"".toList.take 2 ≠ word.take 2) (rest : List Char) :
    rect? (word ++ rest) = none := by
  rw [rect?, rowFields_eq_none _ (by decide +kernel) hword hne]
  rfl

theorem line?_eq_none (word : List Char) (hword : 2 ≤ word.length)
    (hne : "<line x1=\"".toList.take 2 ≠ word.take 2) (rest : List Char) :
    line? (word ++ rest) = none := by
  rw [line?, rowFields_eq_none _ (by decide +kernel) hword hne]
  rfl

/-- No rectangle follows where the lines begin. -/
theorem rect?_lines (d : Drawing Float) (lines : List (Link Float)) :
    rect? (lines.flatMap (fun l => chars (d.linePieces l)) ++ "</svg>\n".toList) = none := by
  cases lines with
  | nil =>
    have hend := rect?_eq_none "</svg>\n".toList (by decide +kernel) (by decide +kernel) []
    rwa [List.append_nil] at hend
  | cons l lines =>
    rw [List.flatMap_cons, Drawing.chars_linePieces, List.append_assoc, List.append_assoc]
    exact rect?_eq_none _ (by decide +kernel) (by decide +kernel) _

section Pictures

variable {d : Drawing Float} (hrects : ∀ r ∈ d.rects, '"' ∉ r.color.toList)
  (hline : '"' ∉ d.lineColor.toList) (hnumbers : Numbers d.pieces)

include hrects hnumbers in
/-- Where the rectangles begin, all of them can be read. -/
theorem readAll_rect? :
    readAll rect? (d.rects.flatMap (fun r => chars r.pieces) ++
      (d.lines.flatMap (fun l => chars (d.linePieces l)) ++ "</svg>\n".toList)) =
        (d.rects, d.lines.flatMap (fun l => chars (d.linePieces l)) ++ "</svg>\n".toList) := by
  -- each row is read as it was written, and no rectangle comes after the last
  refine readAll_eq (fun r hr => ⟨?_, ?_⟩) (rect?_lines d d.lines)
  · rw [Rect.chars_pieces]
    exact List.append_ne_nil_of_left_ne_nil (by decide +kernel) _
  · apply rect?_eq (hrects r hr)
    intro piece hpiece
    apply hnumbers
    simp only [Drawing.pieces, List.mem_append, List.mem_flatMap]
    exact Or.inl (Or.inl (Or.inr ⟨r, hr, hpiece⟩))

include hline hnumbers in
/-- Where the lines begin, all of them can be read, each with the pen that all have. -/
theorem readAll_line? :
    readAll line? (d.lines.flatMap (fun l => chars (d.linePieces l)) ++ "</svg>\n".toList) =
      (d.lines.map fun l => (l, d.lineColor, d.lineWidth), "</svg>\n".toList) := by
  have hnone : line? "</svg>\n".toList = none := by
    have hend := line?_eq_none "</svg>\n".toList (by decide +kernel) (by decide +kernel) []
    rwa [List.append_nil] at hend
  have hread : ∀ p ∈ d.lines.map fun l => (l, d.lineColor, d.lineWidth),
      chars (d.linePieces p.1) ≠ [] ∧
        ∀ rest, line? (chars (d.linePieces p.1) ++ rest) = some (p, rest) := by
    intro p hp
    obtain ⟨l, hl, rfl⟩ := List.mem_map.1 hp
    refine ⟨?_, line?_eq hline ?_⟩
    · rw [Drawing.chars_linePieces]
      exact List.append_ne_nil_of_left_ne_nil (by decide +kernel) _
    · intro piece hpiece
      apply hnumbers
      simp only [Drawing.pieces, List.mem_append, List.mem_flatMap]
      exact Or.inl (Or.inr ⟨l, hl, hpiece⟩)
  -- each line is read together with the pen, which is the same for all of them
  have hall := readAll_eq hread hnone
  rwa [List.flatMap_map] at hall

include hrects hline hnumbers in
/-- **The text of a drawing can be taken apart.** -/
theorem Picture.decode_svg :
    decode d.svg = some ⟨d.viewport, d.rects, d.lines,
      d.lines.head?.map fun _ => (d.lineColor, d.lineWidth)⟩ := by
  have hhead : Numbers d.headPieces := by
    intro piece hpiece
    apply hnumbers
    simp only [Drawing.pieces, List.mem_append]
    exact Or.inl (Or.inl (Or.inl hpiece))
  have hend : chars [.text "</svg>\n"] ++ [] = "</svg>\n".toList := by
    simp [chars, Piece.render]
  -- the rows come as they were written: the root element, rectangles, lines, and the end
  rw [decode, Drawing.toList_svg, hend, viewport?_eq hhead]
  simp only [Option.bind_eq_bind, Option.bind_some, readAll_rect? hrects hnumbers,
    readAll_line? hline hnumbers, if_true]
  rw [List.map_map, List.head?_map, Option.map_map]
  simp only [Function.comp_def, List.map_id']

end Pictures

/-! ## Charts -/

/-- No colour has the character that ends an attribute, and every number that is printed is one. -/
structure Legible (style : Style Float) (chart : Chart Float) (links : List (Link Float)) :
    Prop where
  palette : ∀ color ∈ style.palette, '"' ∉ color.toList
  lineColor : '"' ∉ style.lineColor.toList
  numbers : Numbers (Drawing.ofChart style chart links).pieces

/-- Of a legible chart all fields are ended and all numbers are numbers. -/
theorem Picture.decode_ofChart {style : Style Float} {chart : Chart Float}
    {links : List (Link Float)} (h : Legible style chart links) :
    decode (Drawing.ofChart style chart links).svg =
      some ⟨style.viewport, (Drawing.ofChart style chart links).rects,
        (Drawing.ofChart style chart links).lines,
        (Drawing.ofChart style chart links).lines.head?.map fun _ =>
          (style.lineColor, style.lineWidth)⟩ := by
  refine decode_svg ?_ h.lineColor h.numbers
  intro r hr
  obtain ⟨t, -, rfl⟩ := List.mem_map.1 hr
  exact Style.notMem_color (by decide +kernel) h.palette t.thread

/-- **The colour of a thread** is the one of the palette that its number comes to, going round. -/
theorem Style.color_eq {α : Type} (style : Style α) (thread : UInt64) :
    style.color thread =
      if h : 0 < style.palette.length then
        style.palette.get ⟨thread.toNat % style.palette.length, Nat.mod_lt _ h⟩
      else "gray" := by
  unfold Style.color
  split
  · next h => rw [List.getElem?_eq_getElem (Nat.mod_lt _ h), Option.getD_some, List.get_eq_getElem]
  · next h =>
    have hempty : style.palette = [] := List.length_eq_zero_iff.1 (Nat.eq_zero_of_not_pos h)
    rw [hempty]
    rfl

/-- **What was drawn can be told from the text alone**: the viewport, a rectangle for each task, in
    order, in its place and in the colour of its thread, a line for each link, in order, and what
    the lines were drawn with, if there is one.  Drawings with the same text therefore have the same
    rectangles and the same lines, whatever charts they are of. -/
theorem Picture.decode_svg_ofChart {style : Style Float} {chart : Chart Float}
    {links : List (Link Float)} (h : Legible style chart links) :
    let scale := Scale.toFill style.viewport chart.extent
    Picture.decode (Drawing.ofChart style chart links).svg = some
      { viewport := style.viewport
        rects := chart.tasks.map fun t =>
          { extent := ⟨t.extent.width * scale.x, t.extent.height * scale.y⟩
            corner := ⟨t.corner.x * scale.x, t.corner.y * scale.y⟩
            color :=
              if hpalette : 0 < style.palette.length then
                style.palette.get
                  ⟨t.thread.toNat % style.palette.length, Nat.mod_lt _ hpalette⟩
              else "gray" }
        lines := links.map fun l =>
          ⟨⟨l.source.x * scale.x, l.source.y * scale.y⟩,
            ⟨l.target.x * scale.x, l.target.y * scale.y⟩⟩
        pen := if links.isEmpty then none else some (style.lineColor, style.lineWidth) } ∧
    ∀ (style' : Style Float) (chart' : Chart Float) (links' : List (Link Float)),
      Legible style' chart' links' →
      (Drawing.ofChart style' chart' links').svg = (Drawing.ofChart style chart links).svg →
      (Drawing.ofChart style' chart' links').rects = (Drawing.ofChart style chart links).rects ∧
      (Drawing.ofChart style' chart' links').lines = (Drawing.ofChart style chart links).lines := by
  intro scale
  have hdecode := decode_ofChart h
  constructor
  · rw [hdecode]
    simp only [← Style.color_eq]
    cases links with
    | nil => rfl
    | cons l links => rfl
  -- one text is decoded in one way only, so two drawings with this text have the same picture
  · intro style' chart' links' h' hsame
    have hdecode' := decode_ofChart h'
    rw [hsame, hdecode] at hdecode'
    obtain ⟨-, hrects, hlines, -⟩ := Picture.mk.inj (Option.some.inj hdecode')
    exact ⟨hrects.symm, hlines.symm⟩

/-- A look whose colours read like something else. -/
def misleading : Style Float where
  viewport := ⟨16, 6⟩
  palette := ["red;stroke-width:1", "<line x1=\n"]
  lineColor := "/>\n</svg>;stroke-width:2"
  lineWidth := 0.1

/-- Two tasks one after the other, and a pause between them. -/
def withPause : Chart Float :=
  .group .sequential Point.origin (.task ⟨0, 3, 0, false, ⟨0, 0⟩, by decide +kernel⟩)
    [.task ⟨3, 4, 3, true, ⟨0, 1⟩, by decide +kernel⟩,
      .task ⟨4, 8, 3, false, ⟨0, 2⟩, by decide +kernel⟩]

/-- The two links of it. -/
def aroundPause : List (Link Float) := [⟨⟨1.5, 1⟩, ⟨0.5, 1⟩⟩, ⟨⟨0.5, 2⟩, ⟨2, 2⟩⟩]

/-- Colours that have an element in them, or the words that come after the colour. -/
theorem Picture.decode_svg_ofChart_misleading :
    Legible misleading withPause aroundPause ∧
      Picture.decode (Drawing.ofChart misleading withPause aroundPause).svg = some
        { viewport := ⟨16, 6⟩
          rects := [⟨⟨12, 2⟩, ⟨0, 0⟩, "red;stroke-width:1"⟩, ⟨⟨4, 2⟩, ⟨0, 2⟩, "<line x1=\n"⟩,
            ⟨⟨16, 2⟩, ⟨0, 4⟩, "<line x1=\n"⟩]
          lines := [⟨⟨6, 2⟩, ⟨2, 2⟩⟩, ⟨⟨2, 4⟩, ⟨8, 4⟩⟩]
          pen := some ("/>\n</svg>;stroke-width:2", 0.1) } := by
  have h : Legible misleading withPause aroundPause :=
    ⟨by decide +kernel, by decide +kernel, by decide +kernel⟩
  have hpicture := (Picture.decode_svg_ofChart h).1
  refine ⟨h, hpicture.trans (congrArg some ?_)⟩
  decide +kernel

end SpanChart
