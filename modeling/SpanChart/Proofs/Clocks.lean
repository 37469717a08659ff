/-
  CLOCKS — a drawing does not depend on the clock that the trace was recorded with.

  A clock is started at some time and runs at some rate, and another clock shows another number for
  every moment.  In exact arithmetic a chart keeps of its times only the differences and which came
  first, so that a trace told by another clock is accepted or not as before, and its chart is the
  same one stretched along the time axis by the ratio of the rates.  A drawing is stretched to its
  viewport anyway, and remains what it was.

  1. `motion` — stretching the time axis commutes with each thing that laying out does: with adding
     lengths and taking the larger one, with centring and with the middles of tasks.

  2. `chart?_retime` — the shift is gone from the moment that a task is given its extent.

  3. `mul_factor_stretched` — the factor to the viewport takes back what the clock stretched.  Where
     a chart takes no time there is nothing to stretch, and the factor is one by either clock; this
     is where coordinates have to be known to be zero.
-/
import SpanChart.Proofs.Motions
import SpanChart.Proofs.Revisions
import SpanChart.Proofs.Viewport

namespace SpanChart

/-! ## Clocks -/

/-- What another clock shows: time runs at another rate there, and forwards, and starts from another
    moment. -/
structure Clock where
  rate : Rat
  shift : Rat
  forwards : 0 < rate

namespace Clock

variable (clock : Clock)

/-- What the clock shows at a time. -/
def time (t : Rat) : Rat := clock.rate * t + clock.shift

/-- A point of a chart by the clock. -/
def point (p : Point Rat) : Point Rat := ⟨clock.rate * p.x, p.y⟩

/-- An extent by the clock. -/
def extent (e : Extent Rat) : Extent Rat := ⟨clock.rate * e.width, e.height⟩

/-- A coordinate on the axis of a flow by the clock. -/
def coordinate : Flow → Rat → Rat
  | .parallel, x => clock.rate * x
  | .sequential, y => y

/-- All clocks agree on what was first. -/
theorem time_le_iff {a b : Rat} : clock.time a ≤ clock.time b ↔ a ≤ b := by
  unfold time
  rw [add_le_add_iff_right, mul_le_mul_iff_right₀ clock.forwards]

/-- Nor do they differ on what was strictly first, since they run forwards. -/
theorem time_lt_iff {a b : Rat} : clock.time a < clock.time b ↔ a < b := by
  rw [← not_le, ← not_le, clock.time_le_iff]

/-- The time between two moments does not depend on where the clock started. -/
theorem time_sub_time (a b : Rat) : clock.time a - clock.time b = clock.rate * (a - b) := by
  unfold time
  ring

/-- The later of two moments is the later one by any clock, shift and all. -/
theorem larger_time (a b : Rat) :
    Scalar.larger (clock.time a) (clock.time b) = clock.time (Scalar.larger a b) := by
  by_cases h : a < b
  · rw [Scalar.larger_of_lt h, Scalar.larger_of_lt (clock.time_lt_iff.2 h)]
  · rw [Scalar.larger_of_not_lt h, Scalar.larger_of_not_lt (mt clock.time_lt_iff.1 h)]

/-- Of lengths there is no shift, and the longer one stays the longer one. -/
theorem larger_mul (a b : Rat) :
    Scalar.larger (clock.rate * a) (clock.rate * b) = clock.rate * Scalar.larger a b := by
  rw [Chart.larger_eq_max, Chart.larger_eq_max, mul_max_of_nonneg _ _ clock.forwards.le]

theorem half_mul (x : Rat) : Scalar.half (clock.rate * x) = clock.rate * Scalar.half x :=
  mul_div_assoc clock.rate x 2

theorem point_origin : clock.point Point.origin = Point.origin := by
  show (⟨clock.rate * 0, 0⟩ : Point Rat) = ⟨0, 0⟩
  rw [mul_zero]

end Clock

/-- A span as another clock records it. -/
def Span.retime (clock : Clock) (s : Span Rat) : Span Rat :=
  { s with start := clock.time s.start, finish := clock.time s.finish }

theorem Span.keepsLineage_retime (clock : Clock) : KeepsLineage (Span.retime clock) :=
  ⟨fun _ => rfl, fun _ => rfl⟩

/-- A task by another clock. -/
def Task.retime (clock : Clock) (t : Task Rat) : Task Rat where
  start := clock.time t.start
  finish := clock.time t.finish
  thread := t.thread
  idle := t.idle
  corner := clock.point t.corner
  ordered := clock.time_le_iff.2 t.ordered

/-- A task is stretched like a length: the shift is in both its ends and cancels. -/
theorem Task.extent_retime (clock : Clock) (t : Task Rat) :
    (t.retime clock).extent = clock.extent t.extent := by
  show (⟨clock.time t.finish - clock.time t.start, 1⟩ : Extent Rat) = _
  rw [clock.time_sub_time]
  rfl

/-- The middle of a stretched task. -/
theorem Task.middle_retime (clock : Clock) (t : Task Rat) :
    (t.retime clock).corner.x + Scalar.half (t.retime clock).extent.width =
      clock.rate * (t.corner.x + Scalar.half t.extent.width) := by
  rw [extent_retime, mul_add, ← clock.half_mul]
  rfl

namespace Clock

/-- **Another clock stretches the time axis**, and laying out does not notice. -/
def motion (clock : Clock) : Motion Rat Rat where
  point := clock.point
  extent := clock.extent
  coordinate := clock.coordinate
  task := Task.retime clock
  extent_zero := by
    show (⟨clock.rate * 0, 0⟩ : Extent Rat) = ⟨0, 0⟩
    rw [mul_zero]
  -- lengths in a row add up and stretch together; of those stacked the largest one counts
  extent_extend flow a b := by
    cases flow with
    | parallel =>
      show (⟨clock.rate * (a.width + b.width), _⟩ : Extent Rat) = _
      rw [mul_add]
      rfl
    | sequential =>
      show (⟨clock.rate * Scalar.larger a.width b.width, _⟩ : Extent Rat) = _
      rw [← clock.larger_mul]
      rfl
  along_point flow p := by cases flow <;> rfl
  -- a cursor goes along the time axis in a row and down the rows in a stack, which no clock moves
  coordinate_add flow x e := by
    cases flow with
    | parallel => exact mul_add clock.rate x e.width
    | sequential => rfl
  -- what is centred has half of the rest to its left, and the rest is stretched like all lengths
  point_seat flow p whole part x := by
    cases flow with
    | parallel => rfl
    | sequential =>
      show (⟨clock.rate * (p.x + Scalar.half (whole.width - part.width)), x⟩ : Point Rat) =
        ⟨clock.rate * p.x + Scalar.half (clock.rate * whole.width - clock.rate * part.width), x⟩
      rw [← mul_sub, clock.half_mul, mul_add]
  extent_task t := t.extent_retime clock
  task_place t p := rfl
  entry_task t := congrArg (fun x => (⟨x, t.corner.y⟩ : Point Rat)) (t.middle_retime clock)
  exit_task t := congrArg (fun x => (⟨x, t.corner.y + 1⟩ : Point Rat)) (t.middle_retime clock)

end Clock

/-! ## Charts by another clock -/

/-- An interval is a task by one clock if it is one by the other.  Not placed yet, it stands at the
    origin by both. -/
theorem Task.of?_time (clock : Clock) (start finish : Rat) (thread : UInt64) (idle : Bool) :
    Task.of? (clock.time start) (clock.time finish) thread idle =
      Task.retime clock <$> Task.of? start finish thread idle := by
  by_cases h : start ≤ finish
  · rw [of?_of_le h, of?_of_le (clock.time_le_iff.2 h)]
    show _ = Except.ok (Task.retime clock _)
    unfold Task.retime
    rw [clock.point_origin]
  · rw [of?_of_not_le h, of?_of_not_le (mt clock.time_le_iff.1 h)]
    rfl

namespace Family

variable (clock : Clock)

/-- Branches are charted one by one, and so they are stretched. -/
theorem charts?_retime {fs : List (Family Rat)}
    (hchart : ∀ f ∈ fs, (f.map (Span.retime clock)).chart? = Chart.move clock.motion <$> f.chart?) :
    charts? (fs.map (map (Span.retime clock))) =
      List.map (Chart.move clock.motion) <$> charts? fs := by
  induction fs with
  | nil => rfl
  | cons f fs ih =>
    rw [List.map_cons, charts?, charts?, hchart f List.mem_cons_self,
      ih fun g hg => hchart g (List.mem_cons_of_mem f hg)]
    simp only [map_bind, bind_map_left, map_pure, List.map_cons]

/-- Turns with the idle time between them: where a pause begins is the later of two moments, and
    both clocks agree which. -/
theorem turns?_retime {thread : UInt64} {finish since : Rat} {fs : List (Family Rat)}
    (hchart : ∀ f ∈ fs, (f.map (Span.retime clock)).chart? = Chart.move clock.motion <$> f.chart?) :
    turns? thread (clock.time finish) (clock.time since) (fs.map (map (Span.retime clock))) =
      List.map (Chart.move clock.motion) <$> turns? thread finish since fs := by
  induction fs generalizing since with
  | nil =>
    rw [List.map_nil, turns?, turns?, clock.larger_time, Task.of?_time]
    simp only [map_bind, bind_map_left, map_pure, List.map_cons, List.map_nil]
    rfl
  | cons f fs ih =>
    -- the pause after this turn is measured from where it ends, by the same clock
    have hrest : turns? thread (clock.time finish) (f.map (Span.retime clock)).head.finish
        (fs.map (map (Span.retime clock))) =
          List.map (Chart.move clock.motion) <$> turns? thread finish f.head.finish fs := by
      rw [head_map]
      exact ih fun g hg => hchart g (List.mem_cons_of_mem f hg)
    have hstart : (f.map (Span.retime clock)).head.start = clock.time f.head.start := by
      rw [head_map]
      rfl
    rw [List.map_cons, turns?, turns?, hstart, clock.larger_time, Task.of?_time,
      hchart f List.mem_cons_self, hrest]
    simp only [map_bind, bind_map_left, map_pure, List.map_cons]
    rfl

/-- A group of moved parts is the moved group, if the origin it starts from stays where it is. -/
theorem group?_move (m : Motion Rat Rat) (horigin : m.point Point.origin = Point.origin)
    (flow : Flow) (parts : List (Chart Rat)) :
    Chart.group? flow (parts.map (Chart.move m)) = Chart.move m <$> Chart.group? flow parts := by
  cases parts with
  | nil => rfl
  | cons first rest =>
    show Except.ok _ = Except.ok ((Chart.group flow Point.origin first rest).move m)
    rw [Chart.move_group, horigin]

/-- **By another clock a family has the same chart**, stretched. -/
theorem chart?_retime (f : Family Rat) :
    (f.map (Span.retime clock)).chart? = Chart.move clock.motion <$> f.chart? := by
  induction f with
  | ofNode s fs ih =>
    cases fs with
    | nil =>
      rw [map_node, List.map_nil, chart?, chart?]
      show Chart.task <$> Task.of? (clock.time s.start) (clock.time s.finish) s.thread false = _
      rw [Task.of?_time, Functor.map_map, Functor.map_map]
      rfl
    | cons f fs =>
      have hcharts := charts?_retime clock ih
      have hturns : turns? s.thread (clock.time s.finish) (clock.time s.start)
          ((f :: fs).map (map (Span.retime clock))) =
            List.map (Chart.move clock.motion) <$> turns? s.thread s.finish s.start (f :: fs) :=
        turns?_retime clock ih
      rw [List.map_cons] at hcharts hturns
      have hgroup := group?_move clock.motion clock.point_origin
      rw [map_node, List.map_cons, chart?, chart?]
      show (if s.isJoin then do
          Chart.group? .parallel (← charts? (f.map _ :: fs.map _))
        else do
          Chart.group? .sequential
            (← turns? s.thread (clock.time s.finish) (clock.time s.start)
              (f.map _ :: fs.map _))) = _
      -- whether a span is a join is nothing that a clock changes
      rw [hcharts, hturns]
      cases s.isJoin with
      | true => simp only [↓reduceIte, bind_map_left, map_bind, hgroup]
      | false => simp only [Bool.false_eq_true, ↓reduceIte, bind_map_left, map_bind, hgroup]

end Family

/-! ## Drawings by another clock -/

/-- What is between the ends of a length lands where it did when both are stretched: the factor to
    the room there is takes the stretching back.  A length of nothing is not stretched to fill
    anything, and has only zero between its ends. -/
theorem Clock.mul_factor_stretched (clock : Clock) {room length x : Rat} (hx : 0 ≤ x)
    (hlength : x ≤ length) :
    clock.rate * x * Scale.factor room (clock.rate * length) = x * Scale.factor room length := by
  -- either both lengths are stretched to the room or neither is
  have hrate := clock.forwards
  by_cases h : 0 < length
  · have hstretched : 0 < clock.rate * length := mul_pos hrate h
    rw [Scale.factor, Scale.factor, if_pos h, if_pos hstretched]
    field_simp
  · obtain rfl : x = 0 := by linarith
    rw [mul_zero, zero_mul, zero_mul]

section Stretched

variable (clock : Clock) (viewport whole : Extent Rat)

/-- A point of the chart is drawn where it was. -/
theorem Scale.point_stretched {q : Point Rat} (hleft : 0 ≤ q.x) (hright : q.x ≤ whole.width) :
    (Scale.toFill viewport (clock.extent whole)).point (clock.point q) =
      (Scale.toFill viewport whole).point q := by
  have hx : clock.rate * q.x * Scale.factor viewport.width (clock.rate * whole.width) =
      q.x * Scale.factor viewport.width whole.width :=
    clock.mul_factor_stretched hleft hright
  exact congrArg (fun x => (⟨x, _⟩ : Point Rat)) hx

/-- A length within the chart is drawn as long as it was. -/
theorem Scale.extent_stretched {e : Extent Rat} (hnonneg : 0 ≤ e.width)
    (hwidth : e.width ≤ whole.width) :
    (Scale.toFill viewport (clock.extent whole)).extent (clock.extent e) =
      (Scale.toFill viewport whole).extent e := by
  have hx : clock.rate * e.width * Scale.factor viewport.width (clock.rate * whole.width) =
      e.width * Scale.factor viewport.width whole.width :=
    clock.mul_factor_stretched hnonneg hwidth
  exact congrArg (fun x => (⟨x, _⟩ : Extent Rat)) hx

end Stretched

namespace Drawing

section Placed

variable (clock : Clock) (style : Style Rat) {c : Chart Rat}

/-- The rectangle of a task is where it was. -/
theorem rect_retime {t : Task Rat} (ht : t ∈ (c.place Point.origin).tasks) :
    rect style (Scale.toFill style.viewport (clock.extent c.extent)) (t.retime clock) =
      rect style (Scale.toFill style.viewport c.extent) t := by
  -- a task lies within the chart, so its corner and its width are lengths of the kind above
  obtain ⟨hlow, hhigh⟩ := Chart.between_of_mem_tasks ht .parallel
  have hleft : 0 ≤ t.corner.x := hlow
  have hright : t.corner.x + t.extent.width ≤ c.extent.width := hhigh
  have hwidth := t.width_nonneg
  have hcorner := Scale.point_stretched clock style.viewport c.extent hleft (by linarith)
  have hextent := Scale.extent_stretched clock style.viewport c.extent hwidth (by linarith)
  show (⟨_, _, _⟩ : Rect Rat) = ⟨_, _, _⟩
  rw [← hcorner, ← hextent, ← t.extent_retime clock]
  rfl

/-- The line of a link is where it was, for both its ends are ends of tasks. -/
theorem link_retime {l : Link Rat} (hl : l ∈ (c.place Point.origin).innerLinks) :
    (Scale.toFill style.viewport (clock.extent c.extent)).link (l.map clock.point) =
      (Scale.toFill style.viewport c.extent).link l := by
  -- wherever in its task an end is, it is between the ends of the chart
  have hpoint : ∀ t ∈ (c.place Point.origin).tasks, ∀ q, t.box.Holds q →
      (Scale.toFill style.viewport (clock.extent c.extent)).point (clock.point q) =
        (Scale.toFill style.viewport c.extent).point q := by
    intro t ht q hq
    obtain ⟨hlow, hhigh⟩ := Chart.between_of_mem_tasks ht .parallel
    obtain ⟨hfrom, hto⟩ := hq.along .parallel
    exact Scale.point_stretched clock _ _ (le_trans hlow hfrom) (le_trans hto hhigh)
  obtain ⟨t, ht, u, hu, rfl, -⟩ := Chart.ends_of_innerLinks hl
  show (⟨_, _⟩ : Link Rat) = ⟨_, _⟩
  rw [← hpoint t ht _ t.box_holds_exit, ← hpoint u hu _ u.box_holds_entry]
  rfl

end Placed

end Drawing

namespace Layout

variable (clock : Clock)

/-- A layout by another clock. -/
def retime (layout : Layout Rat) : Layout Rat where
  chart := layout.chart.move clock.motion
  links := layout.links.map (Link.map clock.point)
  extent := clock.extent layout.extent

/-- The layout of a stretched chart is the stretched layout. -/
theorem ofChart_move (c : Chart Rat) :
    ofChart (c.move clock.motion) = (ofChart c).retime clock := by
  -- the origin is where it was, so the stretched chart is placed like the other one
  have hplace : (c.move clock.motion).place Point.origin =
      (c.place Point.origin).move clock.motion := by
    rw [← Chart.place_move]
    exact congrArg _ clock.point_origin.symm
  unfold ofChart retime
  simp only [hplace, Chart.innerLinks_move, Chart.extent_move]
  rfl

/-- **By another clock the drawing is the same.** -/
theorem drawing_retime (style : Style Rat) (c : Chart Rat) :
    Drawing.ofChart style ((ofChart c).retime clock).chart ((ofChart c).retime clock).links =
      Drawing.ofChart style (ofChart c).chart (ofChart c).links := by
  have hextent : (ofChart c).chart.extent = c.extent := Chart.extent_place Point.origin c
  -- rectangles and lines are scaled by the extent, which is stretched as they are
  have hstretched : ((ofChart c).chart.move clock.motion).extent = clock.extent c.extent := by
    rw [Chart.extent_move, hextent]
    rfl
  have hrects : ((ofChart c).chart.move clock.motion).tasks.map
        (Drawing.rect style (Scale.toFill style.viewport (clock.extent c.extent))) =
      (ofChart c).chart.tasks.map (Drawing.rect style (Scale.toFill style.viewport c.extent)) := by
    rw [Chart.tasks_move, List.map_map]
    apply List.map_congr_left
    intro t ht
    exact Drawing.rect_retime clock style ht
  have hlines : ((ofChart c).links.map (Link.map clock.point)).map
        (Scale.toFill style.viewport (clock.extent c.extent)).link =
      (ofChart c).links.map (Scale.toFill style.viewport c.extent).link := by
    rw [List.map_map]
    apply List.map_congr_left
    intro l hl
    exact Drawing.link_retime clock style hl
  unfold Drawing.ofChart
  simp only [hextent, retime, hstretched, hrects, hlines]

/-! ## Traces by another clock -/

variable {trace : Trace Rat}

/-- The checks accept a trace by any clock or by none. -/
theorem exists_check_retime_iff :
    (∃ checked, check (trace.map (Span.retime clock)) = .ok checked) ↔
      ∃ checked, check trace = .ok checked := by
  -- of the times only their order is checked, of the rest nothing has changed
  have hforwards : (∀ s ∈ trace.map (Span.retime clock), ¬s.finish < s.start) ↔
      ∀ s ∈ trace, ¬s.finish < s.start := by
    rw [List.forall_mem_map]
    exact forall₂_congr fun s _ => not_congr clock.time_lt_iff
  rw [exists_check_iff, exists_check_iff, (Span.keepsLineage_retime clock).rooted_map_iff,
    hforwards]

/-- What passes the checks is laid out as before, and stretched. -/
theorem ofTrace_map_retime (h : ∃ checked, check trace = .ok checked) :
    ofTrace (trace.map (Span.retime clock)) = (ofTrace trace).map (retime clock) := by
  -- both traces list one family, so that only its chart is to be compared
  obtain ⟨f, hf, hroot, -⟩ := exists_family_of_check h
  have hroot' : (f.map (Span.retime clock)).head.parent = noParent := by
    rw [Family.head_map]
    exact hroot
  rw [ofTrace_eq_of_listedIn h hf hroot,
    ofTrace_eq_of_listedIn ((exists_check_retime_iff clock).2 h)
      (hf.map (Span.keepsLineage_retime clock)) hroot',
    Family.chart?_retime]
  cases f.chart? with
  | error fault => rfl
  | ok c => exact congrArg Except.ok (ofChart_move clock c)

/-- **A drawing does not depend on the clock.**  By another clock a trace is laid out if it was
    before.  Then all boxes are as wide as the clock is faster and as high as before, and stand
    where the time axis was stretched to, and so do the links; and however it is drawn, the drawing
    is the same. -/
theorem drawing_independent_of_clock (clock : Clock) (trace : Trace Rat) :
    let other := trace.map (Span.retime clock)
    ((∃ stretched, ofTrace other = .ok stretched) ↔ ∃ layout, ofTrace trace = .ok layout) ∧
      ∀ layout stretched, ofTrace trace = .ok layout → ofTrace other = .ok stretched →
        (∀ path, (stretched.chart.at? path).map Chart.box =
          (layout.chart.at? path).map fun c =>
            ⟨⟨clock.rate * c.corner.x, c.corner.y⟩,
              ⟨clock.rate * c.extent.width, c.extent.height⟩⟩) ∧
        stretched.links = (layout.links.map fun l =>
          ⟨⟨clock.rate * l.source.x, l.source.y⟩, ⟨clock.rate * l.target.x, l.target.y⟩⟩) ∧
        stretched.extent = ⟨clock.rate * layout.extent.width, layout.extent.height⟩ ∧
        ∀ style, Drawing.ofChart style stretched.chart stretched.links =
          Drawing.ofChart style layout.chart layout.links := by
  intro other
  by_cases hcheck : ∃ checked, check trace = .ok checked
  · have hother : ofTrace other = (ofTrace trace).map (retime clock) :=
      ofTrace_map_retime clock hcheck
    constructor
    · rw [hother]
      cases ofTrace trace with
      | error failure => simp [Except.map]
      | ok layout => simp [Except.map]
    · intro layout stretched h hstretched
      rw [hother, h] at hstretched
      obtain rfl : layout.retime clock = stretched := Except.ok.inj hstretched
      -- links and extent are stretched by definition; boxes are, wherever a path leads to one
      refine ⟨?_, rfl, rfl, ?_⟩
      · intro path
        show ((layout.chart.move clock.motion).at? path).map Chart.box = _
        rw [Chart.at?_move, Option.map_map]
        apply Option.map_congr
        intro c _
        show (⟨_, _⟩ : Box) = ⟨_, _⟩
        rw [Chart.corner_move, Chart.extent_move]
        rfl
      · intro style
        obtain ⟨c, rfl⟩ := exists_eq_ofChart h
        exact drawing_retime clock style c
  · -- by either clock it does not pass
    have htrace : ∀ layout, ofTrace trace ≠ .ok layout :=
      fun layout h => hcheck (exists_check_of_ofTrace h)
    have hother : ∀ stretched, ofTrace other ≠ .ok stretched :=
      fun stretched h => hcheck ((exists_check_retime_iff clock).1 (exists_check_of_ofTrace h))
    constructor
    · exact ⟨fun ⟨stretched, h⟩ => absurd h (hother stretched),
        fun ⟨layout, h⟩ => absurd h (htrace layout)⟩
    · intro layout stretched h
      exact absurd h (htrace layout)

/-- A clock that is one and a half times as fast shows another width for the same drawing. -/
theorem drawing_independent_of_clock_of_forkAfterTask :
    let clock : Clock := ⟨3 / 2, -7, by norm_num⟩
    ∃ layout stretched, ofTrace forkAfterTask = .ok layout ∧
      ofTrace (forkAfterTask.map (Span.retime clock)) = .ok stretched ∧
      stretched.extent.width = 3 / 2 * layout.extent.width ∧
      ∀ style, Drawing.ofChart style stretched.chart stretched.links =
        Drawing.ofChart style layout.chart layout.links := by
  intro clock
  obtain ⟨hiff, hsame⟩ := drawing_independent_of_clock clock forkAfterTask
  obtain ⟨layout, h⟩ := exists_ofTrace_forkAfterTask
  obtain ⟨stretched, hstretched⟩ := hiff.2 ⟨layout, h⟩
  obtain ⟨-, -, hextent, hdrawing⟩ := hsame layout stretched h hstretched
  exact ⟨layout, stretched, h, hstretched, congrArg Extent.width hextent, hdrawing⟩

end Layout

end SpanChart
