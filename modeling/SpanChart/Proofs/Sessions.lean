/-
  SESSIONS — one trace after another laid out in the same place.

  What is shown is stored field by field (`Display.store`), and traces that are laid out, rejected
  and broken come in any order.  All the same it has to be of one trace: no links of a trace before,
  no size of one that came to nothing.

  1. `attempt_of_ok`, `attempt_of_error` — what one attempt does to a display that shows anything
     whatever.  A layout overwrites all four fields; a failure leaves all four alone, because it is
     over before the first is stored.

  2. `session_eq_getLast` — a session shows what the last of its traces that was laid out shows by
     itself.  The run is by induction from the end of the session, where the last trace decides.

  3. `Shows` — all that is shown is of one chart: the chart stands at the origin, every group in it
     takes the room that its parts fold to, every part is on the seat that its group gives it, and
     links and size are those of the chart.  Where a part is seated is said here without placing
     anything: the cursor has advanced by the lengths of the parts before (`corner_of_placeRow`).
-/
import Mathlib.Data.List.Induction
import SpanChart.Proofs.Drawn
import SpanChart.Display

namespace SpanChart

variable {α : Type} [Scalar α]

namespace Flow

/-- How far along its axis a flow has advanced from `cursor` past some charts. -/
def advance (flow : Flow) (cursor : α) (cs : List (Chart α)) : α :=
  cs.foldl (fun cursor c => cursor + flow.length c.extent) cursor

end Flow

namespace Chart

/-! ## Where parts are seated -/

/-- What stands in a row stands where the row has advanced to. -/
theorem corner_of_placeRow {flow : Flow} {p : Point α} {whole : Extent α} {cursor : α}
    {cs : List (Chart α)} {i : Nat} {d : Chart α}
    (hd : (placeRow flow p whole cursor cs)[i]? = some d) :
    d.corner = flow.seat p whole d.extent
      (flow.advance cursor ((placeRow flow p whole cursor cs).take i)) := by
  induction cs generalizing cursor i with
  | nil => exact absurd hd (by simp [placeRow])
  | cons c cs ih =>
    rw [placeRow] at hd ⊢
    cases i with
    | zero =>
      obtain rfl := Option.some.inj hd
      rw [corner_place, extent_place]
      rfl
    | succ i =>
      rw [List.take_succ_cons, Flow.advance, List.foldl_cons, extent_place]
      exact ih hd

/-- A group takes the room that its parts fold to, and each of them is on its seat. -/
structure WellSeated (flow : Flow) (c : Chart α) : Prop where
  extent : c.extent = c.parts.foldl (fun e d => flow.extend e d.extent) Extent.zero
  seats : ∀ i d, c.parts[i]? = some d →
    d.corner = flow.seat c.corner c.extent d.extent
      (flow.advance (flow.along c.corner) (c.parts.take i))

theorem wellSeated_place (p : Point α) (flow : Flow) (corner : Point α) (first : Chart α)
    (rest : List (Chart α)) : WellSeated flow ((group flow corner first rest).place p) := by
  constructor
  · rw [place_group, extent_group]
    rfl
  · intro i d hd
    rw [parts_place_group] at hd ⊢
    rw [corner_place, extent_place]
    exact corner_of_placeRow hd

/-- Every group of a placed chart is seated, wherever in it the group is. -/
theorem wellSeated_of_at?_place {c : Chart α} {p : Point α} {path : List Nat} {flow : Flow}
    {corner : Point α} {first : Chart α} {rest : List (Chart α)}
    (h : (c.place p).at? path = some (group flow corner first rest)) :
    WellSeated flow (group flow corner first rest) := by
  obtain ⟨d, q, -, hd⟩ := at?_place h
  cases d with
  | task t => cases hd
  | group flow' corner' first' rest' =>
    have hseated := wellSeated_place q flow' corner' first' rest'
    rw [← hd] at hseated
    -- placing moves a group and keeps its flow
    obtain rfl : flow = flow' := by
      rw [place_group] at hd
      exact (group.inj hd).1
    exact hseated

end Chart

namespace Display

open Layout (ofTrace replace joinInTurns exists_eq_ofChart exists_ofTrace_joinInTurns)

/-! ## Displays of one chart -/

/-- All that is shown is of one chart, placed at the origin. -/
structure Shows (shown : Display α) (c : Chart α) : Prop where
  chart : shown.chart = some c
  corner : c.corner = Point.origin
  seated : ∀ path flow corner first rest, c.at? path = some (.group flow corner first rest) →
    Chart.WellSeated flow (.group flow corner first rest)
  links : shown.links = c.innerLinks
  width : shown.width = c.extent.width
  height : shown.height = c.extent.height

/-- A layout, shown. -/
def ofLayout (layout : Layout α) : Display α :=
  ⟨some layout.chart, layout.links, layout.extent.width, layout.extent.height⟩

theorem shows_ofLayout {trace : Trace α} {layout : Layout α} (h : ofTrace trace = .ok layout) :
    (ofLayout layout).Shows layout.chart := by
  obtain ⟨c, rfl⟩ := exists_eq_ofChart h
  exact ⟨rfl, Chart.corner_place _ c, fun _ _ _ _ _ => Chart.wellSeated_of_at?_place, rfl, rfl, rfl⟩

/-! ## One attempt -/

section Expect

variable {ε β : Type} {reason : ε → Failure α} {result : Except ε β} {next : β → Attempt α Unit}

/-- An attempt goes on with what it expected. -/
theorem run_expect_of_ok {b : β} (h : result = .ok b) (shown : Display α) :
    (expect reason result >>= next).run.run shown = (next b).run.run shown := by
  rw [h]
  rfl

/-- An attempt that does not get what it expected ends there and then. -/
theorem run_expect_of_error {e : ε} (h : result = .error e) (shown : Display α) :
    (expect reason result >>= next).run.run shown = (.error (reason e), shown) := by
  rw [h]
  rfl

end Expect

/-- A trace that is laid out takes the place of whatever was shown, in every field. -/
theorem attempt_of_ok {trace : Trace α} {layout : Layout α} (h : ofTrace trace = .ok layout)
    (shown : Display α) : shown.attempt trace = (.ok (), ofLayout layout) := by
  unfold ofTrace at h
  split at h
  case h_1 => cases h
  case h_2 checked hcheck =>
    split at h
    case h_1 => cases h
    case h_2 chart hchart =>
      cases h
      unfold attempt layOut
      rw [run_expect_of_ok hcheck, run_expect_of_ok hchart]
      rfl

/-- A trace that comes to nothing leaves what was shown. -/
theorem attempt_of_error {trace : Trace α} {failure : Failure α}
    (h : ofTrace trace = .error failure) (shown : Display α) :
    shown.attempt trace = (.error failure, shown) := by
  unfold ofTrace at h
  split at h
  case h_1 defect hcheck =>
    cases h
    exact run_expect_of_error hcheck shown
  case h_2 checked hcheck =>
    unfold attempt layOut
    rw [run_expect_of_ok hcheck]
    split at h
    case h_1 fault hchart =>
      cases h
      exact run_expect_of_error hchart shown
    case h_2 => cases h

/-! ## One trace after another -/

/-- What is shown after traces were laid out one after another, where nothing was shown before. -/
def session (traces : List (Trace α)) : Display α :=
  traces.foldl (fun shown trace => (shown.attempt trace).2) empty

/-- Whether a trace is laid out. -/
def laysOut (trace : Trace α) : Bool := (ofTrace trace).toOption.isSome

theorem session_append (traces : List (Trace α)) (trace : Trace α) :
    session (traces ++ [trace]) = ((session traces).attempt trace).2 :=
  List.foldl_concat ..

theorem session_append_of_ok {trace : Trace α} {layout : Layout α}
    (h : ofTrace trace = .ok layout) (traces : List (Trace α)) :
    session (traces ++ [trace]) = ofLayout layout := by
  rw [session_append, attempt_of_ok h]

theorem session_append_of_error {trace : Trace α} {failure : Failure α}
    (h : ofTrace trace = .error failure) (traces : List (Trace α)) :
    session (traces ++ [trace]) = session traces := by
  rw [session_append, attempt_of_error h]

theorem laysOut_of_ok {trace : Trace α} {layout : Layout α} (h : ofTrace trace = .ok layout) :
    laysOut trace = true := by
  rw [laysOut, h]
  rfl

theorem laysOut_of_error {trace : Trace α} {failure : Failure α}
    (h : ofTrace trace = .error failure) : laysOut trace = false := by
  rw [laysOut, h]
  rfl

/-- What a session shows is shown by the last of its traces that was laid out. -/
theorem session_eq_getLast (traces : List (Trace α)) :
    session traces = session (traces.filter laysOut).getLast?.toList := by
  induction traces using List.reverseRecOn with
  | nil => rfl
  | append_singleton traces trace ih =>
    rw [List.filter_append]
    cases h : ofTrace trace with
    | ok layout =>
      rw [List.filter_singleton, laysOut_of_ok h, cond_true, List.getLast?_concat,
        session_append_of_ok h]
      exact (session_append_of_ok h []).symm
    | error failure =>
      rw [List.filter_singleton, laysOut_of_error h, cond_false, List.append_nil,
        session_append_of_error h]
      exact ih

/-- A session shows nothing if none of its traces was laid out, and else the layout of one. -/
theorem session_eq_empty_or (traces : List (Trace α)) :
    (∀ trace ∈ traces, laysOut trace = false) ∧ session traces = empty ∨
      ∃ trace ∈ traces, ∃ layout, ofTrace trace = .ok layout ∧
        session traces = ofLayout layout := by
  induction traces using List.reverseRecOn with
  | nil => exact Or.inl ⟨fun _ h => absurd h List.not_mem_nil, rfl⟩
  | append_singleton traces trace ih =>
    cases h : ofTrace trace with
    | ok layout =>
      exact Or.inr ⟨trace, by simp, layout, h, session_append_of_ok h traces⟩
    | error failure =>
      rw [session_append_of_error h]
      -- a failure changes nothing, and adds nothing that was laid out
      rcases ih with ⟨hnone, hempty⟩ | ⟨trace', hmem, layout, hlayout, hshown⟩
      · refine Or.inl ⟨fun t ht => ?_, hempty⟩
        rcases List.mem_append.1 ht with ht | ht
        · exact hnone t ht
        · rw [List.mem_singleton.1 ht]
          exact laysOut_of_error h
      · exact Or.inr ⟨trace', List.mem_append_left _ hmem, layout, hlayout, hshown⟩

/-- Storing field by field comes to the same as keeping layouts as a whole. -/
theorem session_eq_replace (traces : List (Trace α)) :
    session traces = (traces.foldl replace none).elim empty ofLayout := by
  induction traces using List.reverseRecOn with
  | nil => rfl
  | append_singleton traces trace ih =>
    rw [List.foldl_concat, replace]
    cases h : ofTrace trace with
    | ok layout => exact session_append_of_ok h traces
    | error failure => exact (session_append_of_error h traces).trans ih

/-- **A session shows one trace.**  An attempt on a trace that has a layout succeeds, and all four
    fields are those of the layout afterwards, whatever was shown before; an attempt on a trace that
    is rejected or breaks fails for that reason and changes no field.  So after any traces there is
    shown what the last of them that was laid out shows where it is the only one, and nothing if
    there is none; what is shown is all of one chart; and it is what would be shown of the layout if
    layouts were kept and replaced as a whole. -/
theorem session_shows_last_laid_out (traces : List (Trace α)) :
    (∀ trace layout, ofTrace trace = .ok layout →
      ((session traces).attempt trace).1 = .ok () ∧
        session (traces ++ [trace]) =
          { chart := some layout.chart, links := layout.links,
            width := layout.extent.width, height := layout.extent.height } ∧
        (session (traces ++ [trace])).Shows layout.chart) ∧
      (∀ trace failure, ofTrace trace = .error failure →
        ((session traces).attempt trace).1 = .error failure ∧
          session (traces ++ [trace]) = session traces) ∧
      session traces = session (traces.filter laysOut).getLast?.toList ∧
      ((∀ trace ∈ traces, laysOut trace = false) ∧ session traces = empty ∨
        ∃ trace ∈ traces, ∃ layout, ofTrace trace = .ok layout ∧
          session traces = ofLayout layout ∧ (session traces).Shows layout.chart) ∧
      session traces = (traces.foldl replace none).elim empty ofLayout := by
  refine ⟨fun trace layout h => ?_, fun trace failure h => ?_, session_eq_getLast traces, ?_,
    session_eq_replace traces⟩
  · rw [attempt_of_ok h, session_append_of_ok h]
    exact ⟨rfl, rfl, shows_ofLayout h⟩
  · rw [attempt_of_error h, session_append_of_error h]
    exact ⟨rfl, rfl⟩
  · refine (session_eq_empty_or traces).imp_right ?_
    rintro ⟨trace, hmem, layout, h, hshown⟩
    exact ⟨trace, hmem, layout, h, hshown, hshown ▸ shows_ofLayout h⟩

/-- A session in which traces are rejected (the span ends before it starts) and break (it starts at
    no number) before a run of two spans in turn is laid out and after it: the run is shown, and
    neither the single span before it nor any of the others. -/
theorem session_of_good_and_bad_traces :
    let crooked : Trace Float := [⟨1, 0, 2, 1, 0, ""⟩]
    let blurred : Trace Float := [⟨1, 0, 0 / 0, 1, 0, ""⟩]
    let single : Trace Float := [⟨1, 0, 0, 3, 0, ""⟩]
    ∃ layout, ofTrace joinInTurns = .ok layout ∧
      (session [crooked]).chart = none ∧
      session [crooked, blurred, single, blurred, joinInTurns, crooked, blurred] =
        ofLayout layout ∧
      (ofLayout layout).Shows layout.chart ∧
      (layout.links.length, layout.extent.width, layout.extent.height) = (6, 9, 5) := by
  intro crooked blurred single
  obtain ⟨layout, h⟩ := exists_ofTrace_joinInTurns
  have hcrooked : laysOut crooked = false := by decide +kernel
  have hblurred : laysOut blurred = false := by decide +kernel
  have hsingle : laysOut single = true := by decide +kernel
  have hsize : (ofTrace joinInTurns).toOption.map
      (fun l => (l.links.length, l.extent.width, l.extent.height)) = some (6, 9, 5) := by
    decide +kernel
  rw [h] at hsize
  -- the run by itself, as the only trace of a session
  obtain ⟨-, hrun, hshows⟩ := (session_shows_last_laid_out []).1 joinInTurns layout h
  rw [hrun] at hshows
  have hlast := (session_shows_last_laid_out
    [crooked, blurred, single, blurred, joinInTurns, crooked, blurred]).2.2.1
  have hnone := (session_shows_last_laid_out [crooked]).2.2.1
  simp only [List.filter, hcrooked, hblurred, hsingle, laysOut_of_ok h] at hlast hnone
  exact ⟨layout, h, congrArg chart hnone, hlast.trans hrun, hshows, Option.some.inj hsize⟩

end Display

end SpanChart
