/-
  VIEWPORT — how a drawing fills the room that it is given.

  A drawing is a placed chart stretched along each axis by itself.  In exact arithmetic it fills its
  viewport and leaves it nowhere: the rectangles take up every row of pixels from the top to the
  bottom and, if the run took any time at all, every column from the left to the right.

  What is known of a chart on one axis carries over by one factor for that axis (`Scale.on`):

  * what lies between the ends of the chart lies inside the viewport (`factor_fits`), which goes for
    the boxes of tasks as for the ends of links;
  * the shadow of the rectangles is the stretched shadow of the tasks (`mem_shadow_rects`), and that
    is all of the axis unless the chart takes no room there (`shadow_fills`).  Along the rows it
    always takes some.

  Links are drawn downwards because the tasks that they join were apart already: a link runs from
  the lower side of one task to the upper side of another that it precedes (`ends_of_innerLinks`),
  however the two were centred.
-/
import SpanChart.Drawing.Basic
import SpanChart.Proofs.Covering
import SpanChart.Proofs.Separation
import SpanChart.Proofs.Shadows
import SpanChart.Proofs.Drawn

namespace SpanChart

/-! ## Links between placed tasks -/

namespace Box

/-- The point lies in the box, its sides included. -/
structure Holds (b : Box) (q : Point Rat) : Prop where
  left : b.left ≤ q.x
  right : q.x ≤ b.right
  top : b.top ≤ q.y
  bottom : q.y ≤ b.bottom

theorem Holds.along {b : Box} {q : Point Rat} (h : b.Holds q) (f : Flow) :
    b.low f ≤ f.along q ∧ f.along q ≤ b.high f := by
  cases f with
  | parallel => exact ⟨h.left, h.right⟩
  | sequential => exact ⟨h.top, h.bottom⟩

end Box

namespace Task

/-- No task takes a negative time. -/
theorem width_nonneg (t : Task Rat) : 0 ≤ t.extent.width := sub_nonneg.2 t.ordered

theorem low_le_high (t : Task Rat) (f : Flow) : t.box.low f ≤ t.box.high f := by
  have hlength : 0 ≤ f.length t.extent := by
    cases f with
    | parallel => exact t.width_nonneg
    | sequential => exact zero_le_one
  show f.along t.corner ≤ f.along t.corner + f.length t.extent
  linarith

theorem box_holds_entry (t : Task Rat) : t.box.Holds t.entry := by
  have hhalf : Scalar.half t.extent.width = t.extent.width / 2 := rfl
  have hwidth := t.width_nonneg
  constructor
  · show t.corner.x ≤ t.corner.x + Scalar.half t.extent.width
    linarith
  · show t.corner.x + Scalar.half t.extent.width ≤ t.corner.x + t.extent.width
    linarith
  · exact le_refl t.corner.y
  · show t.corner.y ≤ t.corner.y + 1
    linarith

theorem box_holds_exit (t : Task Rat) : t.box.Holds t.exit := by
  have hentry := t.box_holds_entry
  refine ⟨hentry.left, hentry.right, ?_, le_refl (t.corner.y + 1)⟩
  show t.corner.y ≤ t.corner.y + 1
  linarith

end Task

theorem Flow.along_origin (f : Flow) : f.along (Point.origin : Point Rat) = 0 := by
  cases f <;> rfl

namespace Chart

/-- **Links run downwards.**  A link in a placed chart starts at the exit of one task and ends at
    the entry of another that lies wholly below. -/
theorem ends_of_innerLinks {c : Chart Rat} {p : Point Rat} {l : Link Rat}
    (hl : l ∈ (c.place p).innerLinks) :
    ∃ t ∈ (c.place p).tasks, ∃ u ∈ (c.place p).tasks,
      l = ⟨t.exit, u.entry⟩ ∧ t.box.bottom ≤ u.box.top := by
  rw [innerLinks_eq_map_linkPairs] at hl
  obtain ⟨⟨s, t⟩, hst, rfl⟩ := List.mem_map.1 hl
  have hlt : s < t := (mem_linkPairs_iff_covBy.1 hst).lt
  refine ⟨s.task, s.task_mem, t.task, t.task_mem, rfl, ?_⟩
  exact high_le_low_of_parted s.mem t.mem (LeafOf.lt_iff_precedes.1 hlt)

/-- What a box at the origin holds lies between the ends of the chart on each axis. -/
theorem between_of_mem_tasks {c : Chart Rat} {t : Task Rat}
    (ht : t ∈ (c.place Point.origin).tasks) (f : Flow) :
    0 ≤ t.box.low f ∧ t.box.high f ≤ c.lengthOn f := by
  have hinside := (reach_place f c Point.origin).inside t.box (List.mem_map_of_mem ht)
  rwa [f.along_origin, zero_add] at hinside

/-- Where a chart takes no time, no task does, and all are at the left. -/
theorem flat_of_mem_tasks {c : Chart Rat} (h : c.lengthOn .parallel = 0) {t : Task Rat}
    (ht : t ∈ (c.place Point.origin).tasks) : t.corner.x = 0 ∧ t.extent.width = 0 := by
  obtain ⟨hlow, hhigh⟩ := between_of_mem_tasks ht .parallel
  have hleft : 0 ≤ t.corner.x := hlow
  have hright : t.corner.x + t.extent.width ≤ 0 := h ▸ hhigh
  have hwidth := t.width_nonneg
  constructor
  · linarith
  · linarith

end Chart

/-! ## Stretching along one axis -/

namespace Scale

section

variable {α : Type} [Scalar α]

/-- The factor of the axis of a flow. -/
def on (scale : Scale α) : Flow → α
  | .parallel => scale.x
  | .sequential => scale.y

theorem on_toFill (viewport extent : Extent α) (f : Flow) :
    (toFill viewport extent).on f = factor (f.length viewport) (f.length extent) := by
  cases f <;> rfl

theorem along_point (scale : Scale α) (f : Flow) (p : Point α) :
    f.along (scale.point p) = f.along p * scale.on f := by
  cases f <;> rfl

theorem length_extent (scale : Scale α) (f : Flow) (e : Extent α) :
    f.length (scale.extent e) = f.length e * scale.on f := by
  cases f <;> rfl

end

/-- A length that is positive is stretched to all the room there is. -/
theorem mul_factor {room length : Rat} (h : 0 < length) : length * factor room length = room := by
  rw [factor, if_pos h]
  exact mul_div_cancel₀ room h.ne'

theorem factor_pos {room : Rat} (hroom : 0 < room) (length : Rat) : 0 < factor room length := by
  unfold factor
  split
  · next h => exact div_pos hroom h
  · exact one_pos

/-- What lies between the ends of a length lies in the room that it is stretched to. -/
theorem factor_fits {room length x : Rat} (hroom : 0 < room) (hx : 0 ≤ x) (hlength : x ≤ length) :
    0 ≤ x * factor room length ∧ x * factor room length ≤ room := by
  have hfactor := factor_pos hroom length
  refine ⟨mul_nonneg hx hfactor.le, ?_⟩
  by_cases h : 0 < length
  · calc x * factor room length ≤ length * factor room length :=
        mul_le_mul_of_nonneg_right hlength hfactor.le
      _ = room := mul_factor h
  · -- a length of nothing has nothing but zero between its ends
    obtain rfl : x = 0 := by linarith
    rw [zero_mul]
    exact hroom.le

end Scale

/-- The box of a rectangle. -/
def Rect.box (r : Rect Rat) : Box := ⟨r.corner, r.extent⟩

/-- The box of all the room there is. -/
def Extent.box (viewport : Extent Rat) : Box := ⟨Point.origin, viewport⟩

theorem Extent.right_box (viewport : Extent Rat) : viewport.box.right = viewport.width :=
  zero_add viewport.width

theorem Extent.bottom_box (viewport : Extent Rat) : viewport.box.bottom = viewport.height :=
  zero_add viewport.height

namespace Drawing

section Rects

variable (style : Style Rat) (scale : Scale Rat) (f : Flow)

theorem low_rect (t : Task Rat) :
    (rect style scale t).box.low f = t.box.low f * scale.on f :=
  scale.along_point f t.corner

theorem high_rect (t : Task Rat) :
    (rect style scale t).box.high f = t.box.high f * scale.on f := by
  show f.along (scale.point t.corner) + f.length (scale.extent t.extent) = _
  rw [scale.along_point, scale.length_extent, ← add_mul]
  rfl

/-- The shadow of rectangles is that of the tasks, stretched. -/
theorem mem_shadow_rects (h : 0 < scale.on f) (tasks : List (Task Rat)) (x : Rat) :
    x ∈ Box.shadow f ((tasks.map (rect style scale)).map Rect.box) ↔
      x / scale.on f ∈ Box.shadow f (tasks.map Task.box) := by
  constructor
  · rintro ⟨b, hb, hlow, hhigh⟩
    obtain ⟨r, hr, rfl⟩ := List.mem_map.1 hb
    obtain ⟨t, ht, rfl⟩ := List.mem_map.1 hr
    rw [low_rect] at hlow
    rw [high_rect] at hhigh
    exact ⟨t.box, List.mem_map_of_mem ht, (le_div_iff₀ h).2 hlow, (div_le_iff₀ h).2 hhigh⟩
  · rintro ⟨b, hb, hlow, hhigh⟩
    obtain ⟨t, ht, rfl⟩ := List.mem_map.1 hb
    refine ⟨_, List.mem_map_of_mem (List.mem_map_of_mem ht), ?_, ?_⟩
    · rw [low_rect]
      exact (le_div_iff₀ h).1 hlow
    · rw [high_rect]
      exact (div_le_iff₀ h).1 hhigh

end Rects

/-! ## Drawings of placed charts -/

/-- The factors that a placed chart is stretched by. -/
theorem on_toFill_place (style : Style Rat) (c : Chart Rat) (f : Flow) :
    (Scale.toFill style.viewport (c.place Point.origin).extent).on f =
      Scale.factor (f.length style.viewport) (c.lengthOn f) := by
  rw [Scale.on_toFill, Chart.extent_place]
  rfl

section Placed

variable {style : Style Rat} {scale : Scale Rat} {c : Chart Rat} {f : Flow}
  (hscale : scale.on f = Scale.factor (f.length style.viewport) (c.lengthOn f))
  (hroom : 0 < f.length style.viewport)

include hscale hroom

/-- A point of a task stays in the viewport. -/
theorem point_fits {t : Task Rat} (ht : t ∈ (c.place Point.origin).tasks) {q : Point Rat}
    (hq : t.box.Holds q) :
    0 ≤ f.along (scale.point q) ∧ f.along (scale.point q) ≤ f.length style.viewport := by
  obtain ⟨hlow, hhigh⟩ := Chart.between_of_mem_tasks ht f
  obtain ⟨hfrom, hto⟩ := hq.along f
  rw [Scale.along_point, hscale]
  exact Scale.factor_fits hroom (le_trans hlow hfrom) (le_trans hto hhigh)

/-- The rectangle of a task stays in the viewport. -/
theorem rect_fits {t : Task Rat} (ht : t ∈ (c.place Point.origin).tasks) :
    0 ≤ (rect style scale t).box.low f ∧
      (rect style scale t).box.high f ≤ f.length style.viewport := by
  obtain ⟨hlow, hhigh⟩ := Chart.between_of_mem_tasks ht f
  have hbox := t.low_le_high f
  rw [low_rect, high_rect, hscale]
  exact ⟨(Scale.factor_fits hroom hlow (le_trans hbox hhigh)).1,
    (Scale.factor_fits hroom (le_trans hlow hbox) hhigh).2⟩

/-- Where the chart has any room the rectangles take up all of the viewport. -/
theorem shadow_fills (h : 0 < c.lengthOn f) :
    Box.shadow f (((c.place Point.origin).tasks.map (rect style scale)).map Rect.box) =
      Set.Icc 0 (f.length style.viewport) := by
  have hfactor : 0 < Scale.factor (f.length style.viewport) (c.lengthOn f) :=
    Scale.factor_pos hroom _
  have hshadow := Chart.shadow_place f c Point.origin
  rw [f.along_origin, zero_add] at hshadow
  ext x
  rw [mem_shadow_rects style scale f (by rwa [hscale]), hscale]
  show x / _ ∈ Box.shadow f (c.place Point.origin).taskBoxes ↔ _
  rw [hshadow, Set.mem_Icc, Set.mem_Icc, le_div_iff₀ hfactor, zero_mul, div_le_iff₀ hfactor,
    Scale.mul_factor h]

end Placed

section Filled

variable {style : Style Rat} (hwidth : 0 < style.viewport.width)
  (hheight : 0 < style.viewport.height) {c : Chart Rat}

include hwidth hheight

/-- No rectangle leaves the viewport. -/
theorem rect_within {t : Task Rat} (ht : t ∈ (c.place Point.origin).tasks) :
    (rect style (Scale.toFill style.viewport (c.place Point.origin).extent) t).box.Within
      style.viewport.box := by
  obtain ⟨hleft, hright⟩ := rect_fits (on_toFill_place style c .parallel) hwidth ht
  obtain ⟨htop, hbottom⟩ := rect_fits (on_toFill_place style c .sequential) hheight ht
  exact ⟨hleft, hright.trans_eq style.viewport.right_box.symm, htop,
    hbottom.trans_eq style.viewport.bottom_box.symm⟩

/-- No point of a task leaves the viewport. -/
theorem holds_point {t : Task Rat} (ht : t ∈ (c.place Point.origin).tasks) {q : Point Rat}
    (hq : t.box.Holds q) :
    style.viewport.box.Holds
      ((Scale.toFill style.viewport (c.place Point.origin).extent).point q) := by
  obtain ⟨hleft, hright⟩ := point_fits (on_toFill_place style c .parallel) hwidth ht hq
  obtain ⟨htop, hbottom⟩ := point_fits (on_toFill_place style c .sequential) hheight ht hq
  exact ⟨hleft, hright.trans_eq style.viewport.right_box.symm, htop,
    hbottom.trans_eq style.viewport.bottom_box.symm⟩

/-- A line has both ends in the viewport, and the second is not above the first. -/
theorem line_falls {l : Link Rat} (hl : l ∈ (c.place Point.origin).innerLinks) :
    let line := (Scale.toFill style.viewport (c.place Point.origin).extent).link l
    style.viewport.box.Holds line.source ∧ style.viewport.box.Holds line.target ∧
      line.source.y ≤ line.target.y := by
  obtain ⟨t, ht, u, hu, rfl, hbelow⟩ := Chart.ends_of_innerLinks hl
  refine ⟨holds_point hwidth hheight ht t.box_holds_exit,
    holds_point hwidth hheight hu u.box_holds_entry, ?_⟩
  -- what is no higher is no higher when stretched
  have hfactor : 0 < Scale.factor style.viewport.height (c.place Point.origin).extent.height :=
    Scale.factor_pos hheight _
  exact mul_le_mul_of_nonneg_right hbelow hfactor.le

end Filled

end Drawing

/-! ## Layouts -/

namespace Layout

/-- **A drawing fills its viewport.**  No rectangle leaves it.  The rectangles take up all rows from
    the top to the bottom, and all columns from the left to the right unless the run took no time;
    then they have no width and are at the left.  All lines are inside, and none runs upwards. -/
theorem drawing_fills_viewport {trace : Trace Rat} {layout : Layout Rat}
    (h : ofTrace trace = .ok layout) (style : Style Rat) (hwidth : 0 < style.viewport.width)
    (hheight : 0 < style.viewport.height) :
    let drawing := Drawing.ofChart style layout.chart layout.links
    (∀ r ∈ drawing.rects, r.box.Within style.viewport.box) ∧
      Box.shadow .sequential (drawing.rects.map Rect.box) = Set.Icc 0 style.viewport.height ∧
      (0 < layout.extent.width →
        Box.shadow .parallel (drawing.rects.map Rect.box) = Set.Icc 0 style.viewport.width) ∧
      0 ≤ layout.extent.width ∧
      (layout.extent.width = 0 → ∀ r ∈ drawing.rects, r.corner.x = 0 ∧ r.extent.width = 0) ∧
      ∀ l ∈ drawing.lines,
        style.viewport.box.Holds l.source ∧ style.viewport.box.Holds l.target ∧
          l.source.y ≤ l.target.y := by
  obtain ⟨c, rfl⟩ := exists_eq_ofChart h
  have hlength : (ofChart c).extent.width = c.lengthOn .parallel :=
    congrArg Extent.width (Chart.extent_place Point.origin c)
  rw [hlength]
  refine ⟨?_, ?_, ?_, Chart.lengthOn_nonneg .parallel c, ?_, ?_⟩
  · intro r hr
    obtain ⟨t, ht, rfl⟩ := List.mem_map.1 hr
    exact Drawing.rect_within hwidth hheight ht
  · have hrows : 0 < c.lengthOn .sequential := lt_of_lt_of_le one_pos c.one_le_rows
    exact Drawing.shadow_fills (Drawing.on_toFill_place style c .sequential) hheight hrows
  · intro hwide
    exact Drawing.shadow_fills (Drawing.on_toFill_place style c .parallel) hwidth hwide
  -- a run that took no time: nothing is stretched, and everything is at the left
  · intro hflat r hr
    obtain ⟨t, ht, rfl⟩ := List.mem_map.1 hr
    obtain ⟨hcorner, hnone⟩ := Chart.flat_of_mem_tasks hflat ht
    constructor
    · show t.corner.x * _ = 0
      rw [hcorner, zero_mul]
    · show t.extent.width * _ = 0
      rw [hnone, zero_mul]
  · intro l hl
    obtain ⟨k, hk, rfl⟩ := List.mem_map.1 hl
    exact Drawing.line_falls hwidth hheight hk

/-- Two tasks at once after another one, in a run that waits for both. -/
def forkAfterTask : Trace Rat :=
  [⟨1, 0, 0, 10, 0, ""⟩, ⟨2, 1, 0, 3, 0, ""⟩, ⟨3, 1, 4, 9, 0, "join"⟩, ⟨4, 3, 4, 6, 1, ""⟩,
    ⟨5, 3, 4, 9, 2, ""⟩]

theorem exists_ofTrace_forkAfterTask : ∃ layout, ofTrace forkAfterTask = .ok layout := by
  have hsome : (ofTrace forkAfterTask).toOption.isSome = true := by decide +kernel
  cases h : ofTrace forkAfterTask with
  | error failure => rw [h] at hsome; cases hsome
  | ok layout => exact ⟨layout, rfl⟩

/-- It is drawn from the top to the bottom of the room that it is given. -/
theorem drawing_fills_viewport_of_forkAfterTask :
    ∃ layout, ofTrace forkAfterTask = .ok layout ∧
      Box.shadow .sequential
          ((Drawing.ofChart ⟨⟨7, 3⟩, ["red"], "black", 1⟩ layout.chart layout.links).rects.map
            Rect.box) =
        Set.Icc 0 3 := by
  obtain ⟨layout, h⟩ := exists_ofTrace_forkAfterTask
  have hwidth : (0 : Rat) < 7 := by decide
  have hheight : (0 : Rat) < 3 := by decide
  exact ⟨layout, h, (drawing_fills_viewport h ⟨⟨7, 3⟩, ["red"], "black", 1⟩ hwidth hheight).2.1⟩

end Layout

end SpanChart
