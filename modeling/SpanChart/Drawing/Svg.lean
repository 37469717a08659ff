/-
  SVG — a drawing as a text of elements.

  The root element gives the viewport, then come the rectangles and after them the lines, one
  element to a row.  Numbers are written with all the digits that tell them apart, so that borders
  that coincide in the chart coincide in the picture.  Colours are written as they are: no quoting
  is done for them.
-/
import SpanChart.Drawing.Basic
import SpanChart.Spool

namespace SpanChart

variable {α : Type}

/-- The element of a rectangle. -/
def Rect.pieces (r : Rect α) : List (Piece α) :=
  [.text "<rect width=\"", .number r.extent.width,
   .text "\" height=\"", .number r.extent.height,
   .text "\" x=\"", .number r.corner.x,
   .text "\" y=\"", .number r.corner.y,
   .text "\" style=\"fill:", .text r.color, .text "\"/>\n"]

namespace Drawing

/-- The element of a line. -/
def linePieces (d : Drawing α) (l : Link α) : List (Piece α) :=
  [.text "<line x1=\"", .number l.source.x,
   .text "\" y1=\"", .number l.source.y,
   .text "\" x2=\"", .number l.target.x,
   .text "\" y2=\"", .number l.target.y,
   .text "\" style=\"stroke:", .text d.lineColor,
   .text ";stroke-width:", .number d.lineWidth, .text "\"/>\n"]

/-- The start of the root element. -/
def headPieces (d : Drawing α) : List (Piece α) :=
  [.text "<svg version=\"1.1\" viewBox=\"0 0 ", .number d.viewport.width,
   .text " ", .number d.viewport.height,
   .text "\" xmlns=\"http://www.w3.org/2000/svg\">\n"]

/-- All elements in order. -/
def pieces (d : Drawing α) : List (Piece α) :=
  d.headPieces ++ d.rects.flatMap Rect.pieces ++ d.lines.flatMap d.linePieces ++
    [.text "</svg>\n"]

/-- Writes a drawing to something whose own precision it neither uses nor changes. -/
def write {σ : Type} [Writable σ] (d : Drawing Float) (out : σ) : σ :=
  Writable.putAllWith out Numeral.faithful d.pieces

/-- The text of a drawing. -/
def svg (d : Drawing Float) : String := (d.write ({} : Sink)).text

/-! ## Files -/

/-- Why a drawing is not in the file it should be in. -/
inductive SaveError where
  | cannotOpen (path : String)
  | cannotWrite (path : String)
  deriving Repr, DecidableEq

/-- What is reported when a drawing could not be saved. -/
def SaveError.message : SaveError → String
  | .cannotOpen path => "Error: Could not open " ++ path ++ " for writing\n"
  | .cannotWrite path => "Error: Could not write " ++ path ++ "\n"

/-- Writes a drawing to the file at a path, which was opened as `opened` or could not be. -/
def save {σ : Type} [Writable σ] (d : Drawing Float) (path : String) (opened : Option σ) :
    Except SaveError σ :=
  match opened with
  | none => .error (.cannotOpen path)
  | some out =>
    let written := d.write out
    if Writable.failed written then .error (.cannotWrite path) else .ok written

/-- Saves a drawing at a path that leads to the given place, through a buffer of the given size:
    what is reported of it, and what is there in the end.  The report is made before the file is
    closed. -/
def saveAt (d : Drawing Float) (path : String) (buffer : Nat) (place : Place) :
    Except SaveError Unit × Place :=
  let opened := place.opened buffer
  ((d.save path opened).map fun _ => (), place.closing (opened.map d.write))

end Drawing

/-- A drawing of one task and nothing else. -/
example : (Drawing.svg ⟨⟨8, 4⟩, [⟨⟨8, 4⟩, ⟨0, 0⟩, "red"⟩], [], "black", 1⟩) =
    "<svg version=\"1.1\" viewBox=\"0 0 8 4\" xmlns=\"http://www.w3.org/2000/svg\">\n" ++
    "<rect width=\"8\" height=\"4\" x=\"0\" y=\"0\" style=\"fill:red\"/>\n" ++
    "</svg>\n" := by decide +kernel

end SpanChart
