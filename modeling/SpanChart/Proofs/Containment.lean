/-
  CONTAINMENT — a placed chart takes up exactly the room that its tasks do.

  Measuring a chart and placing it are two passes, and they agree: wherever a chart is placed, in
  exact arithmetic its box is the bounding box of the boxes of its tasks, and so is the box of
  every chart inside it.  No task sticks out, and no side of any box is left without a task that
  touches it.

  The proof goes axis by axis, by induction over the chart (`reach_place`).  On its own axis a
  group is a row: every part begins where the one before it ends, so what the parts reach over
  adds up (`reach_row`).  On the other axis the parts are centred: each of them lies inside, and
  the longest one, which has no room left around it, touches both ends (`reach_centred`).

  That the statement then holds of every chart inside is no new induction: what lies at the end of
  a path in a placed chart is itself a placed chart (`at?_place`).
-/
import SpanChart.Proofs.Axes

namespace SpanChart

/-! ## Boxes -/

/-- A rectangle: its upper left corner and how far it reaches. -/
structure Box where
  corner : Point Rat
  extent : Extent Rat

namespace Box

/-- Where a box begins on the axis of a flow. -/
def low (f : Flow) (b : Box) : Rat := f.along b.corner

/-- Where a box ends on the axis of a flow. -/
def high (f : Flow) (b : Box) : Rat := f.along b.corner + f.length b.extent

def left (b : Box) : Rat := b.corner.x

def right (b : Box) : Rat := b.corner.x + b.extent.width

def top (b : Box) : Rat := b.corner.y

def bottom (b : Box) : Rat := b.corner.y + b.extent.height

/-- One box lies inside another, its sides on those of the other at most. -/
structure Within (a b : Box) : Prop where
  left : b.left ≤ a.left
  right : a.right ≤ b.right
  top : b.top ≤ a.top
  bottom : a.bottom ≤ b.bottom

/-- A box is the bounding box of others: all of them lie inside, and each of its four sides is
    touched by one. -/
structure Bounds (box : Box) (boxes : List Box) : Prop where
  within : ∀ b ∈ boxes, b.Within box
  left : ∃ b ∈ boxes, b.left = box.left
  right : ∃ b ∈ boxes, b.right = box.right
  top : ∃ b ∈ boxes, b.top = box.top
  bottom : ∃ b ∈ boxes, b.bottom = box.bottom

/-- On one axis, boxes reach from one coordinate to another: none of them goes beyond, and both
    ends are reached. -/
structure Reach (f : Flow) (low high : Rat) (boxes : List Box) : Prop where
  inside : ∀ b ∈ boxes, low ≤ b.low f ∧ b.high f ≤ high
  low : ∃ b ∈ boxes, b.low f = low
  high : ∃ b ∈ boxes, b.high f = high

end Box

/-- The box of a task. -/
def Task.box (t : Task Rat) : Box := ⟨t.corner, t.extent⟩

namespace Chart

open Box

/-- The box of a chart. -/
def box (c : Chart Rat) : Box := ⟨c.corner, c.extent⟩

/-- The boxes of the tasks of a chart. -/
def taskBoxes (c : Chart Rat) : List Box := c.tasks.map Task.box

/-! ## Rows -/

/-- Boxes that reach from `a` to `b` and others that reach on to `c` reach from `a` to `c`. -/
theorem reach_append {f : Flow} {a b c : Rat} {xs ys : List Box} (hab : a ≤ b) (hbc : b ≤ c)
    (hxs : Reach f a b xs) (hys : Reach f b c ys) : Reach f a c (xs ++ ys) := by
  refine ⟨fun x hx => ?_, ?_, ?_⟩
  · rcases List.mem_append.1 hx with hx | hx
    · exact ⟨(hxs.inside x hx).1, le_trans (hxs.inside x hx).2 hbc⟩
    · exact ⟨le_trans hab (hys.inside x hx).1, (hys.inside x hx).2⟩
  · obtain ⟨x, hx, h⟩ := hxs.low
    exact ⟨x, List.mem_append_left ys hx, h⟩
  · obtain ⟨y, hy, h⟩ := hys.high
    exact ⟨y, List.mem_append_right xs hy, h⟩

/-- Wherever the chart is placed, its tasks reach over its length on the axis of `f`. -/
def Fills (f : Flow) (c : Chart Rat) : Prop :=
  ∀ q, Reach f (f.along q) (f.along q + c.lengthOn f) (c.place q).taskBoxes

/-- Along its own axis a row reaches over the lengths of its parts together. -/
theorem reach_row (g : Flow) (p : Point Rat) (whole : Extent Rat) {cs : List (Chart Rat)}
    (hne : cs ≠ []) (hfills : ∀ c ∈ cs, c.Fills g) (cursor : Rat) :
    Reach g cursor (cursor + (cs.map (lengthOn g)).sum)
      ((placeRow g p whole cursor cs).flatMap taskBoxes) := by
  induction cs generalizing cursor with
  | nil => exact absurd rfl hne
  | cons c cs ih =>
    have hfirst := hfills c List.mem_cons_self (g.seat p whole c.extent cursor)
    rw [g.along_seat_self] at hfirst
    rw [placeRow, List.flatMap_cons, List.map_cons, List.sum_cons]
    -- the last part is a case by itself, since no boxes reach over nothing
    cases cs with
    | nil =>
      rw [placeRow, List.flatMap_nil, List.append_nil, List.map_nil, List.sum_nil, add_zero]
      exact hfirst
    | cons d ds =>
      have hrest := ih (List.cons_ne_nil d ds) (fun e he => hfills e (List.mem_cons_of_mem c he))
        (cursor + c.lengthOn g)
      have hlength : 0 ≤ c.lengthOn g := lengthOn_nonneg g c
      have hlengths : 0 ≤ ((d :: ds).map (lengthOn g)).sum := List.sum_nonneg fun x hx => by
        obtain ⟨e, -, rfl⟩ := List.mem_map.1 hx
        exact lengthOn_nonneg g e
      rw [← add_assoc]
      exact reach_append (by linarith) (by linarith) hfirst hrest

/-- On the other axis a row reaches over what the longest of its parts does. -/
theorem reach_centred {f g : Flow} (h : f ≠ g) (p : Point Rat) (whole : Extent Rat)
    {cs : List (Chart Rat)} (hfills : ∀ c ∈ cs, c.Fills f)
    (hle : ∀ c ∈ cs, c.lengthOn f ≤ f.length whole)
    (hlongest : ∃ c ∈ cs, c.lengthOn f = f.length whole) (cursor : Rat) :
    Reach f (f.along p) (f.along p + f.length whole)
      ((placeRow g p whole cursor cs).flatMap taskBoxes) := by
  -- half of the room left over is before each part, and half of it after
  have hseat : ∀ (c : Chart Rat) (cursor' : Rat),
      f.along (g.seat p whole c.extent cursor') =
        f.along p + (f.length whole - c.lengthOn f) / 2 :=
    fun c cursor' => Flow.along_seat_of_ne h p whole c.extent cursor'
  obtain ⟨c, hc, hlength⟩ := hlongest
  obtain ⟨cursor', hmem⟩ := exists_mem_placeRow g p whole cursor hc
  have hreach := hfills c hc (g.seat p whole c.extent cursor')
  rw [hseat, hlength, sub_self, zero_div, add_zero] at hreach
  refine ⟨?_, ?_, ?_⟩
  · intro b hb
    obtain ⟨d, hd, hb⟩ := List.mem_flatMap.1 hb
    obtain ⟨e, he, cursor'', rfl⟩ := mem_placeRow hd
    have hinside := (hfills e he _).inside b hb
    rw [hseat] at hinside
    have := hle e he
    constructor
    · linarith [hinside.1]
    · linarith [hinside.2]
  · obtain ⟨b, hb, hlow⟩ := hreach.low
    exact ⟨b, List.mem_flatMap.2 ⟨_, hmem, hb⟩, hlow⟩
  · obtain ⟨b, hb, hhigh⟩ := hreach.high
    exact ⟨b, List.mem_flatMap.2 ⟨_, hmem, hb⟩, hhigh⟩

/-! ## Charts -/

theorem taskBoxes_place_group (p : Point Rat) (flow : Flow) (corner : Point Rat)
    (first : Chart Rat) (rest : List (Chart Rat)) :
    ((group flow corner first rest).place p).taskBoxes =
      (placeRow flow p (group flow corner first rest).extent (flow.along p)
        (first :: rest)).flatMap taskBoxes := by
  rw [taskBoxes, place_group, tasks_group, List.map_flatMap, placeRow]
  rfl

/-- **On each axis the tasks of a placed chart reach over just its length.** -/
theorem reach_place (f : Flow) (c : Chart Rat) : c.Fills f := by
  induction c using inductParts with
  | ofTask t =>
    intro p
    have hbox : ((task t).place p).taskBoxes = [⟨p, t.extent⟩] := rfl
    rw [hbox]
    refine ⟨fun b hb => ?_, ⟨_, List.mem_singleton_self _, rfl⟩,
      ⟨_, List.mem_singleton_self _, rfl⟩⟩
    obtain rfl := List.mem_singleton.1 hb
    exact ⟨le_refl _, le_refl _⟩
  | ofGroup flow corner first rest ih =>
    intro p
    rw [taskBoxes_place_group]
    -- along the axis of the group its parts follow each other, across it the longest decides
    by_cases h : f = flow
    · subst h
      rw [lengthOn_group_self]
      exact reach_row f p _ (List.cons_ne_nil first rest) ih (f.along p)
    · exact reach_centred h p _ ih (fun c hc => lengthOn_le_group h corner hc)
        (exists_lengthOn_eq_group h corner first rest) (flow.along p)

/-- The box of a placed chart bounds the boxes of its tasks. -/
theorem bounds_place (p : Point Rat) (c : Chart Rat) :
    (c.place p).box.Bounds (c.place p).taskBoxes := by
  have hx := reach_place .parallel c p
  have hy := reach_place .sequential c p
  have hbox : (c.place p).box = ⟨p, c.extent⟩ := by
    rw [box, corner_place, extent_place]
  rw [hbox]
  exact {
    within := fun b hb =>
      ⟨(hx.inside b hb).1, (hx.inside b hb).2, (hy.inside b hb).1, (hy.inside b hb).2⟩
    left := hx.low
    right := hx.high
    top := hy.low
    bottom := hy.high }

/-! ## The charts inside -/

/-- **Placed boxes are tight.**  Wherever a chart is placed, every chart inside it has for its box
    the bounding box of its tasks, and hence a box that lies within those of all charts around
    it. -/
theorem placed_boxes_tight (c : Chart Rat) (p : Point Rat) :
    (∀ path b, (c.place p).at? path = some b → b.box.Bounds (b.tasks.map Task.box)) ∧
    (∀ above below a b, (c.place p).at? above = some a →
      (c.place p).at? (above ++ below) = some b → b.box.Within a.box) := by
  have htight : ∀ path b, (c.place p).at? path = some b → b.box.Bounds (b.tasks.map Task.box) := by
    intro path b hb
    obtain ⟨d, q, -, rfl⟩ := at?_place hb
    exact bounds_place q d
  refine ⟨htight, fun above below a b ha hb => ?_⟩
  rw [at?_append, ha, Option.bind_some] at hb
  have hbounds := htight above a ha
  obtain ⟨d, q, -, rfl⟩ := at?_place ha
  obtain ⟨e, r, -, rfl⟩ := at?_place hb
  -- the tasks that touch the sides of the inner box lie inside the outer one
  have hinner := bounds_place r e
  have hwithin : ∀ x ∈ (e.place r).taskBoxes, x.Within (d.place q).box := by
    intro x hx
    obtain ⟨t, ht, rfl⟩ := List.mem_map.1 hx
    exact hbounds.within _ (List.mem_map_of_mem (tasks_subset_of_at? hb ht))
  obtain ⟨l, hl, hleft⟩ := hinner.left
  obtain ⟨r', hr, hright⟩ := hinner.right
  obtain ⟨t, ht, htop⟩ := hinner.top
  obtain ⟨b', hb', hbottom⟩ := hinner.bottom
  exact {
    left := hleft ▸ (hwithin l hl).left
    right := hright ▸ (hwithin r' hr).right
    top := htop ▸ (hwithin t ht).top
    bottom := hbottom ▸ (hwithin b' hb').bottom }

end Chart

end SpanChart
