/-
  MAIN — the program: reads the trace it is given, writes the drawing and reports.
-/
import SpanChart.Command
import SpanChart.Trace.Read

namespace SpanChart

/-- The trace in a file.  What keeps it from being read is reported here. -/
def loadTrace (path : String) : IO (Option (Trace Float)) := do
  let attempt ←
    try
      Trace.readBytes <$> IO.FS.readBinFile path
    catch _ =>
      pure (.error (.cannotOpen path))
  match attempt with
  | .ok trace => return some trace
  | .error reason =>
    IO.eprint reason.message
    return none

/-- Writes the output and then the diagnostics, and gives the status to leave with. -/
def Command.Outcome.deliver (outcome : Command.Outcome) : IO UInt32 := do
  let out ← IO.getStdout
  try
    out.putStr outcome.output.text
    out.flush
  catch _ =>
    IO.eprint Command.outputLost
    return 1
  IO.eprint outcome.diagnostics
  return outcome.status

end SpanChart

/-- Reads, runs, writes. -/
def main (arguments : List String) : IO UInt32 := do
  let loaded ← match arguments with
    | [path] => SpanChart.loadTrace path
    | _ => pure none
  let all := SpanChart.Command.defaultName :: arguments
  match SpanChart.Command.run all (fun _ => loaded) {} with
  | .ok outcome => outcome.deliver
  | .error fault =>
    IO.eprint fault.message
    return 1
