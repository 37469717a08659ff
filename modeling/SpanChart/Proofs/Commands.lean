/-
  COMMANDS — what a run of the program comes to.

  There are five ends (`Ends`): the program was not called as it should be; no trace could be read;
  the trace is rejected; the output takes nothing; a drawing was written.  A trace of numbers leaves
  no sixth (`exists_ends`), for it is a NaN that it takes to break a trace that passed the checks.
  All that there is to say of a run is said of one end after the other.

  What is reported of a drawing is counted on the chart, before anything is a picture.  The text and
  the trace agree with it: tasks and links are the elements of the text, and idle time is what the
  trace has around the children of its spans (`summary_eq`).
-/
import SpanChart.Proofs.Writing
import SpanChart.Proofs.Portrayal

namespace SpanChart

namespace Command

open Numeral (general readable)

/-! ## The five ends -/

/-- The text of the drawing of a layout. -/
def svgOf (layout : Layout Float) : String :=
  (Drawing.ofChart Style.standard layout.chart layout.links).svg

/-- How a run on some arguments may end. -/
inductive Ends (load : String → Option (Trace Float)) (output : Sink) :
    List String → Outcome → Prop
  | usage {args : List String} (hargs : ∀ name path, args ≠ [name, path]) :
      Ends load output args ⟨1, output, Command.usage args⟩
  | unread {name path : String} (hload : load path = none) :
      Ends load output [name, path] ⟨1, output, ""⟩
  | rejected {name path : String} {trace : Trace Float} {defect : Defect Float}
      (hload : load path = some trace) (h : Layout.ofTrace trace = .error (.rejected defect)) :
      Ends load output [name, path] ⟨1, output, defect.message⟩
  | lost {name path : String} {trace : Trace Float} {layout : Layout Float}
      (hload : load path = some trace) (h : Layout.ofTrace trace = .ok layout)
      (hfailed : output.failed = true) : Ends load output [name, path] ⟨1, output, outputLost⟩
  | drawn {name path : String} {trace : Trace Float} {layout : Layout Float}
      (hload : load path = some trace) (h : Layout.ofTrace trace = .ok layout)
      (hgood : output.failed = false) :
      Ends load output [name, path]
        ⟨0, { output with text := output.text ++ svgOf layout }, summary layout⟩

section Run

variable {load : String → Option (Trace Float)} {output : Sink}

theorem draw_of_good (layout : Layout Float) (h : output.failed = false) :
    draw layout output =
      ⟨0, { output with text := output.text ++ svgOf layout }, summary layout⟩ := by
  simp only [draw, Drawing.write_of_good _ h, h]
  rfl

theorem draw_of_failed (layout : Layout Float) (h : output.failed = true) :
    draw layout output = ⟨1, output, outputLost⟩ := by
  simp only [draw, Drawing.write_of_failed _ h, h]
  rfl

/-- **Every run ends**, in one of these ways, if traces are of numbers. -/
theorem exists_ends (args : List String) (output : Sink)
    (numbers : ∀ path trace, load path = some trace →
      ∀ s ∈ trace, s.start.isNaN = false ∧ s.finish.isNaN = false) :
    ∃ outcome, run args load output = .ok outcome ∧ Ends load output args outcome := by
  by_cases hargs : ∃ name path, args = [name, path]
  · obtain ⟨name, path, rfl⟩ := hargs
    cases hload : load path with
    | none =>
      refine ⟨_, ?_, .unread hload⟩
      simp only [run, hload]
    | some trace =>
      -- this is where numbers are asked for: without NaNs a trace that passes does not break
      have htimely := Layout.timely_of_isNaN_eq_false (numbers path trace hload)
      have hrun : run [name, path] load output = chart trace output := by simp only [run, hload]
      rw [hrun, chart]
      cases htrace : Layout.ofTrace trace with
      | error failure =>
        cases failure with
        | rejected defect => exact ⟨_, rfl, .rejected hload htrace⟩
        | broken fault => exact absurd htimely (Layout.ofTrace_eq_broken_iff.1 htrace).2.1
      | ok layout =>
        cases hfailed : output.failed with
        | true =>
          have hdraw := draw_of_failed layout hfailed
          exact ⟨_, congrArg Except.ok hdraw, .lost hload htrace hfailed⟩
        | false =>
          have hdraw := draw_of_good layout hfailed
          exact ⟨_, congrArg Except.ok hdraw, .drawn hload htrace hfailed⟩
  · have hother : ∀ name path, args ≠ [name, path] := fun name path h => hargs ⟨name, path, h⟩
    refine ⟨_, ?_, .usage hother⟩
    unfold run
    split
    · exact absurd rfl (hother _ _)
    · rfl

/-! ## What is reported -/

/-- **The text and the trace agree with the report**: it has an element for each task and for each
    link, and the idle tasks are those around the children of spans. -/
theorem summary_eq {trace : Trace Float} {layout : Layout Float}
    (h : Layout.ofTrace trace = .ok layout) :
    summary layout =
      "Trace laid out: " ++ toString (elements "rect" (svgOf layout)) ++ " tasks (" ++
        toString (trace.map trace.idleAround).sum ++ " idle), " ++
        toString (elements "line" (svgOf layout)) ++ " edges, " ++
        general readable layout.extent.width ++ "x" ++ general readable layout.extent.height ++
        "\n" := by
  obtain ⟨f, hf, -, hperm, hdrawn, -⟩ := Layout.exists_drawn h
  have hidle : idleCount layout.chart = (trace.map trace.idleAround).sum := by
    rw [idleCount, countP_idle_of_drawn hf hdrawn, (hperm.map trace.idleAround).sum_eq]
  -- elements are counted by where they begin, so no colour may look like the beginning of one
  have hpalette : ∀ color ∈ Style.standard.palette, '<' ∉ color.toList := by decide +kernel
  have hrects : ∀ r ∈ (Drawing.ofChart Style.standard layout.chart layout.links).rects,
      '<' ∉ r.color.toList := by
    intro r hr
    obtain ⟨t, -, rfl⟩ := List.mem_map.1 hr
    exact Style.notMem_color (by decide +kernel) hpalette t.thread
  have hlines : '<' ∉
      (Drawing.ofChart Style.standard layout.chart layout.links).lineColor.toList := by
    show '<' ∉ "black".toList
    decide +kernel
  have htasks : elements "rect" (svgOf layout) = layout.chart.tasks.length := by
    rw [svgOf, Drawing.elements_rect hrects hlines]
    exact List.length_map _
  have hlinks : elements "line" (svgOf layout) = layout.links.length := by
    rw [svgOf, Drawing.elements_line hrects hlines]
    exact List.length_map _
  rw [htasks, hlinks, ← hidle]
  rfl

/-! ## What a run comes to -/

namespace Ends

variable {args : List String} {outcome : Outcome}

theorem status_eq (h : Ends load output args outcome) :
    outcome.status = 0 ∨ outcome.status = 1 := by
  cases h with
  | usage | unread | rejected | lost => exact Or.inr rfl
  | drawn => exact Or.inl rfl

/-- A run that fails leaves the output as it was. -/
theorem output_eq (h : Ends load output args outcome) (hstatus : outcome.status = 1) :
    outcome.output = output := by
  have hsucceeds : (0 : UInt32) ≠ 1 := by decide
  cases h with
  | usage | unread | rejected | lost => rfl
  | drawn => exact absurd hstatus hsucceeds

/-- A run succeeds where a trace is read and laid out, and the output takes it. -/
theorem status_eq_zero_iff (h : Ends load output args outcome) :
    outcome.status = 0 ↔ ∃ name path trace, args = [name, path] ∧ load path = some trace ∧
      (∃ layout, Layout.ofTrace trace = .ok layout) ∧ output.failed = false := by
  have hfails : (1 : UInt32) ≠ 0 := by decide
  cases h with
  | usage hargs =>
    refine iff_of_false hfails ?_
    rintro ⟨name, path, trace, rfl, -⟩
    exact hargs name path rfl
  | unread hload =>
    refine iff_of_false hfails ?_
    rintro ⟨name, path, trace, hargs, hsome, -⟩
    cases hargs
    rw [hload] at hsome
    cases hsome
  | rejected hload htrace =>
    refine iff_of_false hfails ?_
    rintro ⟨name, path, trace, hargs, hsome, ⟨layout, hlayout⟩, -⟩
    cases hargs
    obtain rfl := Option.some.inj (hload.symm.trans hsome)
    rw [htrace] at hlayout
    cases hlayout
  -- laid out, and lost all the same
  | lost hload htrace hfailed =>
    refine iff_of_false hfails ?_
    rintro ⟨name, path, trace, -, -, -, hgood⟩
    rw [hfailed] at hgood
    cases hgood
  | drawn hload htrace hgood =>
    exact iff_of_true rfl ⟨_, _, _, rfl, hload, ⟨_, htrace⟩, hgood⟩

section Loaded

variable {name path : String} {trace : Trace Float} (hload : load path = some trace)

include hload

/-- Where a trace was read a run that fails says so in one line. -/
theorem isErrorLine (h : Ends load output [name, path] outcome) (hstatus : outcome.status = 1) :
    IsErrorLine outcome.diagnostics := by
  have hsucceeds : (0 : UInt32) ≠ 1 := by decide
  cases h with
  | usage hargs => exact absurd rfl (hargs name path)
  | unread hnone =>
    rw [hload] at hnone
    cases hnone
  | rejected => exact isErrorLine_message _
  | lost => exact isErrorLine_outputLost
  | drawn => exact absurd hstatus hsucceeds

/-- A run that succeeds has drawn the layout of the trace, and reports on it. -/
theorem exists_drawn (h : Ends load output [name, path] outcome) (hstatus : outcome.status = 0) :
    ∃ layout, Layout.ofTrace trace = .ok layout ∧
      outcome.output = { output with text := output.text ++ svgOf layout } ∧
      outcome.diagnostics = summary layout := by
  have hfails : (1 : UInt32) ≠ 0 := by decide
  cases h with
  | usage | unread | rejected | lost => exact absurd hstatus hfails
  | drawn hsome htrace =>
    obtain rfl := Option.some.inj (hload.symm.trans hsome)
    exact ⟨_, htrace, rfl, rfl⟩

end Loaded

end Ends

/-- **What a run comes to.**  It always ends, if traces are of numbers.  It succeeds exactly if it
    is given one path, where there is a well-formed trace, and the output takes anything; and where
    it fails the output gets nothing.  Where a trace was read, a run that fails says so in one line;
    one that succeeds adds to the output the text of the drawing and nothing else, and reports in
    one line how many elements for tasks and for links the text has, and how much idle time there is
    around the children of spans. -/
theorem run_outcome (args : List String) (load : String → Option (Trace Float)) (output : Sink)
    (numbers : ∀ path trace, load path = some trace →
      ∀ s ∈ trace, s.start.isNaN = false ∧ s.finish.isNaN = false) :
    ∃ outcome, run args load output = .ok outcome ∧
      (outcome.status = 0 ∨ outcome.status = 1) ∧
      (outcome.status = 0 ↔ ∃ name path trace, args = [name, path] ∧ load path = some trace ∧
        WellFormed trace ∧ output.failed = false) ∧
      (outcome.status = 1 → outcome.output = output) ∧
      ∀ name path trace, args = [name, path] → load path = some trace →
        ((∃ layout, Layout.ofTrace trace = .ok layout) ↔ WellFormed trace) ∧
        (outcome.status = 1 → IsErrorLine outcome.diagnostics) ∧
        (outcome.status = 0 → ∃ layout, Layout.ofTrace trace = .ok layout ∧
          let svg := (Drawing.ofChart Style.standard layout.chart layout.links).svg
          outcome.output = { output with text := output.text ++ svg } ∧
          IsLine outcome.diagnostics ∧
          outcome.diagnostics =
            "Trace laid out: " ++ toString (elements "rect" svg) ++ " tasks (" ++
              toString (trace.map trace.idleAround).sum ++ " idle), " ++
              toString (elements "line" svg) ++ " edges, " ++
              general readable layout.extent.width ++ "x" ++
              general readable layout.extent.height ++ "\n") := by
  have hlaidOut : ∀ path trace, load path = some trace →
      ((∃ layout, Layout.ofTrace trace = .ok layout) ↔ WellFormed trace) := by
    intro path trace hload
    have hnumbers := numbers path trace hload
    rw [Layout.exists_ofTrace_iff, Layout.exists_check_iff_wellFormed hnumbers]
    exact and_iff_left (Layout.timely_of_isNaN_eq_false hnumbers)
  obtain ⟨outcome, hrun, hends⟩ := exists_ends args output numbers
  refine ⟨outcome, hrun, hends.status_eq, ?_, hends.output_eq, ?_⟩
  · rw [hends.status_eq_zero_iff]
    constructor
    · rintro ⟨name, path, trace, hargs, hload, hlayout, hgood⟩
      exact ⟨name, path, trace, hargs, hload, (hlaidOut path trace hload).1 hlayout, hgood⟩
    · rintro ⟨name, path, trace, hargs, hload, hwell, hgood⟩
      exact ⟨name, path, trace, hargs, hload, (hlaidOut path trace hload).2 hwell, hgood⟩
  · rintro name path trace rfl hload
    refine ⟨hlaidOut path trace hload, hends.isErrorLine hload, fun hstatus => ?_⟩
    obtain ⟨layout, hlayout, houtput, hdiagnostics⟩ := hends.exists_drawn hload hstatus
    refine ⟨layout, hlayout, houtput, ?_, ?_⟩
    · rw [hdiagnostics]
      exact isLine_summary layout
    · rw [hdiagnostics]
      exact summary_eq hlayout

/-- One file is read and drawn, to an output that takes anything. -/
theorem run_outcome_of_joinInTurns :
    let load := fun path => if path = "run.json" then some Layout.joinInTurns else none
    ∃ outcome, run ["trace2svg", "run.json"] load {} = .ok outcome ∧ outcome.status = 0 ∧
      IsLine outcome.diagnostics := by
  intro load
  have numbers : ∀ path trace, load path = some trace →
      ∀ s ∈ trace, s.start.isNaN = false ∧ s.finish.isNaN = false := by
    intro path trace hload
    obtain ⟨-, htrace⟩ := Option.ite_none_right_eq_some.1 hload
    obtain rfl := Option.some.inj htrace
    decide
  obtain ⟨outcome, hrun, -, hstatus, -, hloaded⟩ :=
    run_outcome ["trace2svg", "run.json"] load {} numbers
  obtain ⟨hwell, -, hdrawn⟩ := hloaded _ _ _ rfl rfl
  have hzero : outcome.status = 0 :=
    hstatus.2 ⟨_, _, _, rfl, rfl, hwell.1 Layout.exists_ofTrace_joinInTurns, rfl⟩
  obtain ⟨layout, -, -, hline, -⟩ := hdrawn hzero
  exact ⟨outcome, hrun, hzero, hline⟩

end Run

end Command

end SpanChart
