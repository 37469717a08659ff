/-
  DRAWING — a chart in the units of a viewport: rectangles, one for each task, and lines, one for
  each link.

  The chart is stretched to fill the viewport, each axis by itself.  An axis along which the chart
  takes no room cannot be stretched and keeps its scale.  A rectangle has its thread's colour: the
  palette is gone through in the order of the threads' numbers, over and over.
-/
import SpanChart.Chart.Basic

namespace SpanChart

variable {α : Type}

/-- What a drawing looks like. -/
structure Style (α : Type) where
  /-- How much room there is. -/
  viewport : Extent α
  /-- The colours of the threads. -/
  palette : List String
  /-- The colour of all lines. -/
  lineColor : String
  /-- How thick all lines are. -/
  lineWidth : α
  deriving Repr, DecidableEq

namespace Style

/-- The look of a drawing that nobody asked for another of. -/
def standard : Style Float where
  viewport := ⟨1920, 1080⟩
  palette := ["red", "green", "blue"]
  lineColor := "black"
  lineWidth := 1

/-- The colour of everything that has no colour of its own. -/
def fallbackColor : String := "gray"

/-- The colour of a thread. -/
def color (style : Style α) (thread : UInt64) : String :=
  style.palette[thread.toNat % style.palette.length]?.getD fallbackColor

end Style

/-! ## Stretching -/

/-- The factors by which the two axes are stretched. -/
structure Scale (α : Type) where
  x : α
  y : α
  deriving Repr, DecidableEq

namespace Scale

variable [Scalar α]

/-- The factor that stretches `length` to `room`. -/
def factor (room length : α) : α := if 0 < length then room / length else 1

/-- The factors that stretch a chart of the given extent to fill a viewport. -/
def toFill (viewport extent : Extent α) : Scale α :=
  ⟨factor viewport.width extent.width, factor viewport.height extent.height⟩

def extent (scale : Scale α) (e : Extent α) : Extent α := ⟨e.width * scale.x, e.height * scale.y⟩

def point (scale : Scale α) (p : Point α) : Point α := ⟨p.x * scale.x, p.y * scale.y⟩

def link (scale : Scale α) (l : Link α) : Link α := ⟨scale.point l.source, scale.point l.target⟩

end Scale

/-! ## Drawings -/

/-- A filled rectangle. -/
structure Rect (α : Type) where
  extent : Extent α
  corner : Point α
  color : String
  deriving Repr, DecidableEq

/-- All that is drawn, in viewport units. -/
structure Drawing (α : Type) where
  viewport : Extent α
  rects : List (Rect α)
  lines : List (Link α)
  lineColor : String
  lineWidth : α
  deriving Repr, DecidableEq

namespace Drawing

variable [Scalar α]

/-- The rectangle of a task. -/
def rect (style : Style α) (scale : Scale α) (t : Task α) : Rect α :=
  ⟨scale.extent t.extent, scale.point t.corner, style.color t.thread⟩

/-- The drawing of a chart and of links, which are drawn over it. -/
def ofChart (style : Style α) (chart : Chart α) (links : List (Link α)) : Drawing α :=
  let scale := Scale.toFill style.viewport chart.extent
  { viewport := style.viewport
    rects := chart.tasks.map (rect style scale)
    lines := links.map scale.link
    lineColor := style.lineColor
    lineWidth := style.lineWidth }

end Drawing

end SpanChart
