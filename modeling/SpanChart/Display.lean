/-
  DISPLAY — what is shown, and laying a trace out in its place.

  Whoever shows a chart keeps it somewhere together with its links and its size, and has one trace
  after another laid out in the same place.  These are stored one by one, and only when nothing can
  go wrong any more: a trace that is rejected or breaks ends the attempt before the first of them
  is touched.
-/
import SpanChart.Layout

namespace SpanChart

/-- What is shown: a chart, if there is one yet, with its links and its size. -/
structure Display (α : Type) [Scalar α] where
  chart : Option (Chart α)
  links : List (Link α)
  width : α
  height : α

namespace Display

variable {α : Type} [Scalar α]

/-- Where nothing was ever shown. -/
def empty : Display α := ⟨none, [], 0, 0⟩

/-- Something that changes what is shown and may fail.  What it stored before it failed stays
    stored. -/
abbrev Attempt (α : Type) [Scalar α] (β : Type) := ExceptT (Failure α) (StateM (Display α)) β

/-- Goes on with a result, or fails for the given reason if there is none. -/
def expect {ε β : Type} (reason : ε → Failure α) (result : Except ε β) : Attempt α β :=
  MonadExcept.ofExcept (result.mapError reason)

/-- Stores a placed chart, its links and its size, field by field. -/
def store (placed : Chart α) : Attempt α Unit := do
  modify fun shown => { shown with links := placed.innerLinks }
  modify fun shown => { shown with width := placed.extent.width }
  modify fun shown => { shown with height := placed.extent.height }
  modify fun shown => { shown with chart := some placed }

/-- Lays a trace out in place of what is shown. -/
def layOut (trace : Trace α) : Attempt α Unit := do
  let checked ← expect .rejected (Layout.check trace)
  let chart ← expect .broken (Chart.ofSpan checked.register checked.children checked.root)
  store (chart.place Point.origin)

/-- What comes of laying a trace out, and what is shown afterwards. -/
def attempt (shown : Display α) (trace : Trace α) : Except (Failure α) Unit × Display α :=
  (layOut trace).run.run shown

end Display

end SpanChart
