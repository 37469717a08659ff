/-
  GEOMETRY — the plane that a chart is laid out in.

  Two axes of two kinds: `x` runs along trace time, `y` counts rows of tasks, downwards.  A box is
  a corner (its upper left one) and an extent; what the chart says about the order of execution is
  drawn as links, straight lines from where one task is left to where another is entered.

  Extents compose in two ways, and these are the whole theory of how big a chart gets: side by
  side, widths add up and the taller one decides the height; one above the other, heights add up
  and the wider one decides the width.
-/
import SpanChart.Scalar

namespace SpanChart

variable {α : Type}

/-- A place in the plane. -/
structure Point (α : Type) where
  x : α
  y : α
  deriving Repr, BEq, DecidableEq

/-- How much room a box takes. -/
structure Extent (α : Type) where
  width : α
  height : α
  deriving Repr, BEq, DecidableEq

/-- A straight line of control flow. -/
structure Link (α : Type) where
  /-- Where the task that came first is left. -/
  source : Point α
  /-- Where the task that came next is entered. -/
  target : Point α
  deriving Repr, BEq, DecidableEq

/-- The point at which everything starts that is not placed otherwise. -/
def Point.origin [Scalar α] : Point α := ⟨0, 0⟩

namespace Extent

/-- The extent of nothing. -/
def zero [Scalar α] : Extent α := ⟨0, 0⟩

/-- The extent of two boxes side by side. -/
def beside [Scalar α] (a b : Extent α) : Extent α :=
  ⟨a.width + b.width, Scalar.larger a.height b.height⟩

/-- The extent of one box on top of another. -/
def above [Scalar α] (a b : Extent α) : Extent α :=
  ⟨Scalar.larger a.width b.width, a.height + b.height⟩

end Extent

/-! ## Composition along an axis

  A group of boxes is laid out along one axis, its main one, and centred on the other.
-/

/-- How the parts of a group ran: at once, or one after another. -/
inductive Flow where
  | parallel
  | sequential
  deriving Repr, DecidableEq

namespace Flow

/-- Adds one more box to a group of the given extent. -/
def extend [Scalar α] : Flow → Extent α → Extent α → Extent α
  | parallel => Extent.beside
  | sequential => Extent.above

/-- The coordinate of a point on the main axis: parallel parts advance with time, sequential ones
    with the rows. -/
def along : Flow → Point α → α
  | parallel, p => p.x
  | sequential, p => p.y

/-- The length of a box on the main axis. -/
def length : Flow → Extent α → α
  | parallel, e => e.width
  | sequential, e => e.height

/-- The corner of a part of extent `part`, whose main coordinate is `cursor`, in a group at
    `corner` of extent `whole`.  On the cross axis half of the room left over goes before it. -/
def seat [Scalar α] (flow : Flow) (corner : Point α) (whole part : Extent α) (cursor : α) :
    Point α :=
  match flow with
  | parallel => ⟨cursor, corner.y + Scalar.half (whole.height - part.height)⟩
  | sequential => ⟨corner.x + Scalar.half (whole.width - part.width), cursor⟩

end Flow

end SpanChart
