/-
  LAYOUT — from a trace to a placed chart with its links.

  A trace is checked before anything is made of it: span by span, then its parents, then that it
  has one root, then that all its spans descend from there and not too deeply.  The first defect
  found rejects it.  What passes is charted, placed at the origin and linked.

  Checking has nothing to say about NaNs, which are not less than anything; a trace with one may
  pass and break while it is charted.
-/
import SpanChart.Chart.OfSpans
import SpanChart.Chart.Placement
import SpanChart.Chart.Links

namespace SpanChart

/-- A chart ready to be drawn. -/
structure Layout (α : Type) [Scalar α] where
  chart : Chart α
  links : List (Link α)
  extent : Extent α

/-- Why there is no layout of a trace. -/
inductive Failure (α : Type) where
  /-- The trace was looked through and turned down. -/
  | rejected (defect : Defect α)
  /-- The trace passed, and could not be charted nevertheless. -/
  | broken (fault : Fault)
  deriving Repr, DecidableEq

namespace Layout

variable {α : Type} [Scalar α]

/-- A trace that passed all checks: its spans by id, who descends from whom, and the root. -/
structure Checked (α : Type) where
  register : Register α
  children : Children
  root : SpanId

/-- Looks a trace through. -/
def check (trace : Trace α) : Except (Defect α) (Checked α) := do
  let register ← Register.ofTrace? trace
  let lineage := Lineage.ofTrace trace
  let root ← Lineage.root? lineage.roots
  match lineage.children.survey root (UInt64.ofNat trace.length) with
  | some defect => .error defect
  | none => return ⟨register, lineage.children, root⟩

/-- The layout of a chart, wherever it stood before. -/
def ofChart (chart : Chart α) : Layout α :=
  let placed := chart.place Point.origin
  ⟨placed, placed.innerLinks, placed.extent⟩

/-- The layout of a trace. -/
def ofTrace (trace : Trace α) : Except (Failure α) (Layout α) :=
  match check trace with
  | .error defect => .error (.rejected defect)
  | .ok checked =>
    match Chart.ofSpan checked.register checked.children checked.root with
    | .error fault => .error (.broken fault)
    | .ok chart => .ok (ofChart chart)

/-- What is laid out is a chart, placed and linked. -/
theorem exists_eq_ofChart {trace : Trace α} {layout : Layout α} (h : ofTrace trace = .ok layout) :
    ∃ chart, layout = ofChart chart := by
  unfold ofTrace at h
  split at h
  · cases h
  · split at h
    · cases h
    · next chart _ =>
      cases h
      exact ⟨chart, rfl⟩

/-- What there is to show after an attempt to lay something out: the new layout, or where there
    is none what was there before. -/
def orElse (old : Option (Layout α)) : Except (Failure α) (Layout α) → Option (Layout α)
  | .ok new => some new
  | .error _ => old

/-- What there is to show after one trace was laid out in place of another. -/
def replace (old : Option (Layout α)) (trace : Trace α) : Option (Layout α) :=
  orElse old (ofTrace trace)

end Layout

end SpanChart
