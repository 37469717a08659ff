/-
  WRITING — what stands in the text of a drawing, and where the text goes.

  A drawing is written to a sink that belongs to somebody else.  If the sink takes anything at all,
  it gets the same text whatever it got before and whatever precision it writes other numbers with,
  and keeps that precision; if it has failed, nothing of it changes (`write_of_good`,
  `write_of_failed`).

  The text has as many elements of a kind as there are things to draw (`elements_rect`,
  `elements_line`).  Elements are counted in the text itself, by the places where one starts.  An
  element stands alone in its row: the row begins with it, and past its first character nothing
  starts another, neither in the fixed words nor in the numbers, and not in the colours if these are
  written without the character in question.
-/
import Mathlib.Data.List.Infix
import SpanChart.Proofs.Wording

namespace SpanChart

/-! ## Sinks -/

/-- What pieces read like one after the other. -/
def Piece.renderAll (precision : Nat) (pieces : List (Piece Float)) : String :=
  String.join (pieces.map (Piece.render precision))

theorem Piece.renderAll_cons (precision : Nat) (piece : Piece Float) (pieces : List (Piece Float)) :
    renderAll precision (piece :: pieces) =
      piece.render precision ++ renderAll precision pieces := by
  rw [renderAll, List.map_cons, String.join_cons]
  rfl

/-- What no single piece changes, many do not change. -/
theorem Writable.putAll_eq_self {σ : Type} [Writable σ] {out : σ} (h : ∀ piece, put out piece = out)
    (pieces : List (Piece Float)) : putAll out pieces = out := by
  induction pieces with
  | nil => rfl
  | cons piece pieces ih =>
    show putAll (put out piece) pieces = out
    rw [h, ih]

namespace Sink

open Writable (putAll)

theorem putAll_of_failed {sink : Sink} (h : sink.failed = true) (pieces : List (Piece Float)) :
    putAll sink pieces = sink :=
  Writable.putAll_eq_self (fun _ => if_pos h) pieces

/-- A sink that takes anything takes all pieces, with its own precision. -/
theorem putAll_of_good (sink : Sink) (h : sink.failed = false) (pieces : List (Piece Float)) :
    putAll sink pieces =
      { sink with text := sink.text ++ Piece.renderAll sink.precision pieces } := by
  induction pieces generalizing sink with
  | nil =>
    show sink = { sink with text := sink.text ++ "" }
    rw [String.append_empty]
  | cons piece pieces ih =>
    have hput : sink.put piece =
        { sink with text := sink.text ++ piece.render sink.precision } := by
      rw [put, if_neg (Bool.eq_false_iff.1 h)]
    show putAll (sink.put piece) pieces = _
    rw [hput, ih { sink with text := sink.text ++ piece.render sink.precision } h,
      Piece.renderAll_cons, String.append_assoc]

end Sink

namespace Drawing

variable (d : Drawing Float) {sink : Sink}

/-- The text of a drawing is that of its pieces, with all digits. -/
theorem svg_eq : d.svg = Piece.renderAll Numeral.faithful d.pieces := by
  show (Writable.putAll ({ precision := Numeral.faithful } : Sink) d.pieces).text = _
  rw [Sink.putAll_of_good _ rfl]
  exact String.empty_append

/-- **A sink that takes anything gets the text of the drawing**, and keeps its precision. -/
theorem write_of_good (h : sink.failed = false) :
    d.write sink = { sink with text := sink.text ++ d.svg } := by
  -- the digits are set, all pieces are put, and the digits are set back
  show { Writable.putAll ({ sink with precision := Numeral.faithful } : Sink) d.pieces with
    precision := sink.precision } = _
  rw [Sink.putAll_of_good { sink with precision := Numeral.faithful } h, svg_eq]

/-- A sink that has failed stays as it is. -/
theorem write_of_failed (h : sink.failed = true) : d.write sink = sink := by
  have hfailed : ({ sink with precision := Numeral.faithful } : Sink).failed = true := h
  show { Writable.putAll ({ sink with precision := Numeral.faithful } : Sink) d.pieces with
    precision := sink.precision } = _
  rw [Sink.putAll_of_failed hfailed]

end Drawing

/-! ## Rows -/

/-- In how many places of a text a tag begins, which is a bracket and a word. -/
def places (word text : List Char) : Nat := text.tails.countP ('<' :: word).isPrefixOf

/-- Where there is no bracket no tag begins. -/
theorem places_append (word : List Char) {text : List Char} (h : '<' ∉ text) (rest : List Char) :
    places word (text ++ rest) = places word rest := by
  induction text with
  | nil => rfl
  | cons c cs ih =>
    have hc : '<' ≠ c := fun heq => h (heq ▸ List.mem_cons_self)
    have hfirst : ('<' :: word).isPrefixOf (c :: (cs ++ rest)) = false := by
      rw [List.isPrefixOf, beq_eq_false_iff_ne.2 hc, Bool.false_and]
    have hcs := ih fun hmem => h (List.mem_cons_of_mem c hmem)
    unfold places at hcs ⊢
    rw [List.cons_append, List.tails_cons, List.countP_cons, hfirst, hcs]
    rfl

/-- The text begins with a tag, whose word comes first and which is the only one. -/
def Row (first : List Char) (text : List Char) : Prop :=
  ∃ tail, text = '<' :: (first ++ tail) ∧ '<' ∉ first ++ tail

/-- A row has the tag in front if that is the one in question, and no other. -/
theorem Row.places {word first text : List Char} (hrow : Row first text)
    (hlength : word.length ≤ first.length) (rest : List Char) :
    places word (text ++ rest) = places word rest + if word.isPrefixOf first then 1 else 0 := by
  obtain ⟨tail, rfl, hinner⟩ := hrow
  -- the word is decided within the one that comes first
  have hfirst : ('<' :: word).isPrefixOf ('<' :: (first ++ tail ++ rest)) =
      word.isPrefixOf first := by
    rw [List.isPrefixOf, beq_self_eq_true, Bool.true_and, Bool.eq_iff_iff,
      List.isPrefixOf_iff_prefix, List.isPrefixOf_iff_prefix, List.append_assoc]
    constructor
    · intro h
      exact List.prefix_of_prefix_length_le h (List.prefix_append _ _) hlength
    · intro h
      exact h.trans (List.prefix_append _ _)
  have hrest := places_append word hinner rest
  unfold SpanChart.places at hrest ⊢
  rw [List.cons_append, List.tails_cons, List.countP_cons, hfirst, hrest]

/-- As many rows have as many tags. -/
theorem places_rows {β : Type} {word first : List Char} {row : β → List Char}
    (hlength : word.length ≤ first.length) {xs : List β} (hrow : ∀ x ∈ xs, Row first (row x))
    (rest : List Char) :
    places word (xs.flatMap row ++ rest) =
      places word rest + if word.isPrefixOf first then xs.length else 0 := by
  induction xs with
  | nil => simp
  | cons x xs ih =>
    have hxs := ih fun y hy => hrow y (List.mem_cons_of_mem x hy)
    rw [List.flatMap_cons, List.append_assoc, (hrow x List.mem_cons_self).places hlength, hxs,
      List.length_cons]
    split
    · omega
    · omega

/-! ## The rows of a drawing -/

/-- The characters of pieces, numbers with all digits. -/
def chars (pieces : List (Piece Float)) : List Char :=
  pieces.flatMap fun piece => (piece.render Numeral.faithful).toList

/-- There is no bracket in the pieces. -/
def Bare (pieces : List (Piece Float)) : Prop := '<' ∉ chars pieces

theorem Bare.nil : Bare [] := List.not_mem_nil

theorem Bare.text {s : String} {pieces : List (Piece Float)} (hs : '<' ∉ s.toList)
    (h : Bare pieces) : Bare (.text s :: pieces) := by
  unfold Bare chars
  rw [List.flatMap_cons, List.mem_append]
  exact fun hmem => hmem.elim hs h

/-- Numbers are written without brackets. -/
theorem Bare.number (x : Float) {pieces : List (Piece Float)} (h : Bare pieces) :
    Bare (.number x :: pieces) := by
  unfold Bare chars
  rw [List.flatMap_cons, List.mem_append]
  refine fun hmem => hmem.elim (fun hx => ?_) h
  have hnot : ¬Numeral.Used '<' := by decide
  exact hnot (Numeral.used_of_mem_general hx)

/-- Pieces that have a bracket at their very front, and no other, are a row. -/
theorem Bare.row {s : String} {first : List Char} {pieces : List (Piece Float)}
    (hs : s.toList = '<' :: first) (hfirst : '<' ∉ first) (h : Bare pieces) :
    Row first (chars (.text s :: pieces)) := by
  refine ⟨chars pieces, ?_, ?_⟩
  · have hchars : chars (.text s :: pieces) = s.toList ++ chars pieces := List.flatMap_cons
    rw [hchars, hs, List.cons_append]
  · rw [List.mem_append]
    exact fun hmem => hmem.elim hfirst h

/-- A character is in no colour of a thread if it is in none of the palette. -/
theorem Style.notMem_color {α : Type} {style : Style α} {c : Char}
    (hfallback : c ∉ fallbackColor.toList) (hpalette : ∀ color ∈ style.palette, c ∉ color.toList)
    (thread : UInt64) : c ∉ (style.color thread).toList := by
  unfold Style.color
  cases hcolor : style.palette[thread.toNat % style.palette.length]? with
  | none => exact hfallback
  | some color => exact hpalette color (List.mem_of_getElem? hcolor)

/-- The row of a rectangle. -/
theorem Rect.row_pieces {r : Rect Float} (hcolor : '<' ∉ r.color.toList) :
    Row "rect width=\"".toList (chars r.pieces) := by
  apply Bare.row (by decide +kernel) (by decide +kernel)
  apply Bare.number
  apply Bare.text (by decide +kernel)
  apply Bare.number
  apply Bare.text (by decide +kernel)
  apply Bare.number
  apply Bare.text (by decide +kernel)
  apply Bare.number
  apply Bare.text (by decide +kernel)
  apply Bare.text hcolor
  exact Bare.text (by decide +kernel) Bare.nil

namespace Drawing

variable {d : Drawing Float}

/-- The row of a line. -/
theorem row_linePieces (hcolor : '<' ∉ d.lineColor.toList) (l : Link Float) :
    Row "line x1=\"".toList (chars (d.linePieces l)) := by
  apply Bare.row (by decide +kernel) (by decide +kernel)
  apply Bare.number
  apply Bare.text (by decide +kernel)
  apply Bare.number
  apply Bare.text (by decide +kernel)
  apply Bare.number
  apply Bare.text (by decide +kernel)
  apply Bare.number
  apply Bare.text (by decide +kernel)
  apply Bare.text hcolor
  apply Bare.text (by decide +kernel)
  apply Bare.number
  exact Bare.text (by decide +kernel) Bare.nil

/-- The row that all others stand under. -/
theorem row_headPieces : Row "svg version=\"1.1\" viewBox=\"0 0 ".toList (chars d.headPieces) := by
  apply Bare.row (by decide +kernel) (by decide +kernel)
  apply Bare.number
  apply Bare.text (by decide +kernel)
  apply Bare.number
  exact Bare.text (by decide +kernel) Bare.nil

/-- The text of a drawing, row by row. -/
theorem toList_svg : d.svg.toList =
    chars d.headPieces ++ (d.rects.flatMap (fun r => chars r.pieces) ++
      (d.lines.flatMap (fun l => chars (d.linePieces l)) ++ (chars [.text "</svg>\n"] ++ []))) := by
  rw [svg_eq, Piece.renderAll, String.toList_join, List.flatMap_map]
  unfold pieces chars
  simp only [List.flatMap_append, List.flatMap_assoc, List.append_assoc, List.append_nil]

/-- What a tag is counted for: each row that begins with it. -/
theorem places_svg {word : List Char} (hlength : word.length ≤ 6)
    (hrects : ∀ r ∈ d.rects, '<' ∉ r.color.toList) (hlines : '<' ∉ d.lineColor.toList) :
    places word d.svg.toList =
      (if word.isPrefixOf "/svg>\n".toList then 1 else 0) +
      (if word.isPrefixOf "line x1=\"".toList then d.lines.length else 0) +
      (if word.isPrefixOf "rect width=\"".toList then d.rects.length else 0) +
      (if word.isPrefixOf "svg version=\"1.1\" viewBox=\"0 0 ".toList then 1 else 0) := by
  have hend : Row "/svg>\n".toList (chars [.text "</svg>\n"]) :=
    Bare.row (by decide +kernel) (by decide +kernel) Bare.nil
  have hnone : places word [] = 0 := rfl
  have hlong : ∀ first : String, 6 ≤ first.toList.length → word.length ≤ first.toList.length :=
    fun first h => le_trans hlength h
  rw [toList_svg, row_headPieces.places (hlong _ (by decide +kernel)),
    places_rows (hlong _ (by decide +kernel)) fun r hr => Rect.row_pieces (hrects r hr),
    places_rows (hlong _ (by decide +kernel)) fun l _ => row_linePieces hlines l,
    hend.places (hlong _ (by decide +kernel)), hnone, Nat.zero_add]

end Drawing

/-- How many elements of a name a text has: in how many places one begins. -/
def elements (name text : String) : Nat := places (name ++ " ").toList text.toList

namespace Drawing

variable {d : Drawing Float} (hrects : ∀ r ∈ d.rects, '<' ∉ r.color.toList)
  (hlines : '<' ∉ d.lineColor.toList)

include hrects hlines

/-- **There is an element for each rectangle.** -/
theorem elements_rect : elements "rect" d.svg = d.rects.length := by
  have hend : ("rect" ++ " ").toList.isPrefixOf "/svg>\n".toList = false := by decide +kernel
  have hline : ("rect" ++ " ").toList.isPrefixOf "line x1=\"".toList = false := by decide +kernel
  have hrect : ("rect" ++ " ").toList.isPrefixOf "rect width=\"".toList = true := by decide +kernel
  have hhead : ("rect" ++ " ").toList.isPrefixOf "svg version=\"1.1\" viewBox=\"0 0 ".toList =
      false := by decide +kernel
  rw [elements, places_svg (by decide +kernel) hrects hlines, hend, hline, hrect, hhead]
  simp

/-- **There is an element for each line.** -/
theorem elements_line : elements "line" d.svg = d.lines.length := by
  have hend : ("line" ++ " ").toList.isPrefixOf "/svg>\n".toList = false := by decide +kernel
  have hline : ("line" ++ " ").toList.isPrefixOf "line x1=\"".toList = true := by decide +kernel
  have hrect : ("line" ++ " ").toList.isPrefixOf "rect width=\"".toList = false := by decide +kernel
  have hhead : ("line" ++ " ").toList.isPrefixOf "svg version=\"1.1\" viewBox=\"0 0 ".toList =
      false := by decide +kernel
  rw [elements, places_svg (by decide +kernel) hrects hlines, hend, hline, hrect, hhead]
  simp

end Drawing

end SpanChart
