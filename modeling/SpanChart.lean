import SpanChart.Scalar
import SpanChart.Geometry
import SpanChart.Span
import SpanChart.Trace.Defect
import SpanChart.Trace.Register
import SpanChart.Trace.Lineage
import SpanChart.Trace.Json
import SpanChart.Trace.Read
import SpanChart.Chart.Basic
import SpanChart.Chart.Placement
import SpanChart.Chart.Links
import SpanChart.Chart.OfSpans
import SpanChart.Layout
import SpanChart.Display
import SpanChart.Numeral.Binary
import SpanChart.Numeral.Significant
import SpanChart.Numeral.General
import SpanChart.Sink
import SpanChart.Spool
import SpanChart.Drawing.Basic
import SpanChart.Drawing.Svg
import SpanChart.Command
import SpanChart.Main
import SpanChart.Proofs.Leaves
import SpanChart.Proofs.Precedence
import SpanChart.Proofs.Connectors
import SpanChart.Proofs.Sources
import SpanChart.Proofs.Covering
import SpanChart.Proofs.Placed
import SpanChart.Proofs.Axes
import SpanChart.Proofs.Containment
import SpanChart.Proofs.Separation
import SpanChart.Proofs.Shadows
import SpanChart.Proofs.Motions
import SpanChart.Proofs.Locality
import SpanChart.Proofs.Translations
import SpanChart.Proofs.Numbers
import SpanChart.Proofs.Descent
import SpanChart.Proofs.Registration
import SpanChart.Proofs.Acceptance
import SpanChart.Proofs.Charting
import SpanChart.Proofs.Outcomes
import SpanChart.Proofs.Families
import SpanChart.Proofs.Drawn
import SpanChart.Proofs.Portrayal
import SpanChart.Proofs.Levels
import SpanChart.Proofs.Nesting
import SpanChart.Proofs.Chronology
import SpanChart.Proofs.Renaming
import SpanChart.Proofs.Revisions
import SpanChart.Proofs.Viewport
import SpanChart.Proofs.Clocks
import SpanChart.Proofs.Wording
import SpanChart.Proofs.Writing
import SpanChart.Proofs.Commands
import SpanChart.Proofs.Sessions
import SpanChart.Proofs.Regrouping
import SpanChart.Proofs.Lines
import SpanChart.Proofs.Walking
import SpanChart.Proofs.Strays
import SpanChart.Proofs.Rounding
import SpanChart.Proofs.Notation
import SpanChart.Proofs.Faithful
import SpanChart.Proofs.Decoding
import SpanChart.Proofs.Reports
import SpanChart.Proofs.Origins
import SpanChart.Proofs.Unseen
import SpanChart.Proofs.Asking
import SpanChart.Proofs.Halves
import SpanChart.Proofs.Ordinates
import SpanChart.Proofs.Unrounded
import SpanChart.Proofs.Unchecked
import SpanChart.Proofs.IdleTime
import SpanChart.Proofs.Extremes
import SpanChart.Proofs.Findings
import SpanChart.Proofs.Renderings
import SpanChart.Proofs.Nearest
import SpanChart.Proofs.Operations
import SpanChart.Proofs.Arithmetic
import SpanChart.Proofs.Growth
import SpanChart.Proofs.Finiteness
import SpanChart.Proofs.Siblings
