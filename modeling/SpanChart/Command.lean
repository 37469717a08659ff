/-
  COMMAND — what the program does with its arguments, apart from reading and printing.

  It takes the path of a trace and nothing else.  The drawing goes to the output, and one line
  about it to the diagnostics; if there is no drawing, the line says why, and the status is that of
  a failure.  A path that no trace could be read from has been complained about by whoever read it.
-/
import SpanChart.Layout
import SpanChart.Drawing.Svg

namespace SpanChart.Command

open Numeral (general readable)

/-- What the program leaves behind. -/
structure Outcome where
  /-- Zero for success, one for failure. -/
  status : UInt32
  output : Sink
  diagnostics : String
  deriving Repr, DecidableEq

/-- The name that the program goes by where it is not told one. -/
def defaultName : String := "trace2svg"

/-- How to use the program. -/
def usage (args : List String) : String :=
  "Usage: " ++ args.head?.getD defaultName ++ " <trace.json>\n" ++
    "Writes the fork-join diagram of the trace as SVG to stdout.\n"

/-- What is reported of a drawing that could not be written. -/
def outputLost : String := "Error: Could not write SVG to standard output\n"

/-- How many tasks of a chart are idle time. -/
def idleCount (chart : Chart Float) : Nat := chart.tasks.countP Task.idle

/-- What is reported of a layout that was drawn. -/
def summary (layout : Layout Float) : String :=
  "Trace laid out: " ++ toString layout.chart.tasks.length ++ " tasks (" ++
    toString (idleCount layout.chart) ++ " idle), " ++ toString layout.links.length ++ " edges, " ++
    general readable layout.extent.width ++ "x" ++ general readable layout.extent.height ++ "\n"

/-- Draws a layout to the output. -/
def draw (layout : Layout Float) (output : Sink) : Outcome :=
  let written := (Drawing.ofChart Style.standard layout.chart layout.links).write output
  if written.failed then ⟨1, written, outputLost⟩ else ⟨0, written, summary layout⟩

/-- Lays a trace out and draws it. -/
def chart (trace : Trace Float) (output : Sink) : Except Fault Outcome :=
  match Layout.ofTrace trace with
  | .error (.rejected defect) => .ok ⟨1, output, defect.message⟩
  | .error (.broken fault) => .error fault
  | .ok layout => .ok (draw layout output)

/-- Runs the program on its arguments, its own name among them.  `load` gives the trace at a path,
    or nothing where none can be read. -/
def run (args : List String) (load : String → Option (Trace Float)) (output : Sink) :
    Except Fault Outcome :=
  match args with
  | [_, path] =>
    match load path with
    | none => .ok ⟨1, output, ""⟩
    | some trace => chart trace output
  | _ => .ok ⟨1, output, usage args⟩

end SpanChart.Command
