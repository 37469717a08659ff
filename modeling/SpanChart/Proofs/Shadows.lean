/-
  SHADOWS — the coordinates that the tasks of a chart take up.

  On each axis the tasks of a placed chart stand over coordinates from one end of its box to the
  other (`reach_place`).  They stand over all of these: there is no line across a chart that meets
  none of its tasks.  That is one more induction along a row and across it, `covers_place`:

  * along its own axis a row goes on where it stopped, so a coordinate that one part does not reach
    is one of those after it;
  * across it the longest part is as long as the row, and has no room left before it or after.

  Together the two say what the shadow of a chart is, `shadow_place`.  How long it is matters for
  rows only: a chart has at least one (`one_le_rows`), but it may well take no time at all.
-/
import SpanChart.Proofs.Containment

namespace SpanChart

namespace Box

/-- The coordinates on the axis of a flow that boxes stand over. -/
def shadow (f : Flow) (boxes : List Box) : Set Rat :=
  {x | ∃ b ∈ boxes, b.low f ≤ x ∧ x ≤ b.high f}

end Box

namespace Chart

open Box

/-- Wherever the chart is placed, its tasks leave out no coordinate from one end of its box to the
    other. -/
def Covers (f : Flow) (c : Chart Rat) : Prop :=
  ∀ q x, f.along q ≤ x → x ≤ f.along q + c.lengthOn f → x ∈ shadow f (c.place q).taskBoxes

/-- Along its own axis a row leaves nothing out. -/
theorem covers_row (g : Flow) (p : Point Rat) (whole : Extent Rat) {cs : List (Chart Rat)}
    (hne : cs ≠ []) (hcovers : ∀ c ∈ cs, c.Covers g) (cursor x : Rat) (hlow : cursor ≤ x)
    (hhigh : x ≤ cursor + (cs.map (lengthOn g)).sum) :
    x ∈ shadow g ((placeRow g p whole cursor cs).flatMap taskBoxes) := by
  induction cs generalizing cursor with
  | nil => exact absurd rfl hne
  | cons c cs ih =>
    have hfirst := hcovers c List.mem_cons_self (g.seat p whole c.extent cursor) x
    rw [g.along_seat_self] at hfirst
    rw [List.map_cons, List.sum_cons] at hhigh
    rw [placeRow, List.flatMap_cons]
    by_cases hpast : x ≤ cursor + c.lengthOn g
    · obtain ⟨b, hb, hx⟩ := hfirst hlow hpast
      exact ⟨b, List.mem_append_left _ hb, hx⟩
    · -- the first part has ended, so there is a next one
      have hmore : cs ≠ [] := by
        rintro rfl
        rw [List.map_nil, List.sum_nil, add_zero] at hhigh
        exact hpast hhigh
      have hrest := ih hmore (fun d hd => hcovers d (List.mem_cons_of_mem c hd))
        (cursor + c.lengthOn g) (le_of_not_ge hpast) (by linarith)
      obtain ⟨b, hb, hx⟩ := hrest
      exact ⟨b, List.mem_append_right _ hb, hx⟩

/-- On the other axis the longest part of a row leaves nothing out. -/
theorem covers_centred {f g : Flow} (h : f ≠ g) (p : Point Rat) (whole : Extent Rat)
    {cs : List (Chart Rat)} (hcovers : ∀ c ∈ cs, c.Covers f)
    (hlongest : ∃ c ∈ cs, c.lengthOn f = f.length whole) (cursor x : Rat) (hlow : f.along p ≤ x)
    (hhigh : x ≤ f.along p + f.length whole) :
    x ∈ shadow f ((placeRow g p whole cursor cs).flatMap taskBoxes) := by
  obtain ⟨c, hc, hlength⟩ := hlongest
  obtain ⟨cursor', hmem⟩ := exists_mem_placeRow g p whole cursor hc
  have hseat : f.along (g.seat p whole c.extent cursor') = f.along p := by
    have hcentre : f.along (g.seat p whole c.extent cursor') =
        f.along p + (f.length whole - c.lengthOn f) / 2 :=
      Flow.along_seat_of_ne h p whole c.extent cursor'
    rw [hcentre, hlength, sub_self, zero_div, add_zero]
  have hx := hcovers c hc (g.seat p whole c.extent cursor') x
  rw [hseat, hlength] at hx
  obtain ⟨b, hb, hx⟩ := hx hlow hhigh
  exact ⟨b, List.mem_flatMap.2 ⟨_, hmem, hb⟩, hx⟩

/-- **No coordinate is left out.** -/
theorem covers_place (f : Flow) (c : Chart Rat) : c.Covers f := by
  induction c using inductParts with
  | ofTask t =>
    intro q x hlow hhigh
    exact ⟨⟨q, t.extent⟩, List.mem_singleton_self _, hlow, hhigh⟩
  | ofGroup flow corner first rest ih =>
    intro q x hlow hhigh
    rw [taskBoxes_place_group]
    by_cases h : f = flow
    · subst h
      rw [lengthOn_group_self] at hhigh
      exact covers_row f q _ (List.cons_ne_nil first rest) ih (f.along q) x hlow hhigh
    · exact covers_centred h q _ ih (exists_lengthOn_eq_group h corner first rest) (flow.along q) x
        hlow hhigh

/-- **The shadow of a placed chart** is its box's. -/
theorem shadow_place (f : Flow) (c : Chart Rat) (q : Point Rat) :
    shadow f (c.place q).taskBoxes = Set.Icc (f.along q) (f.along q + c.lengthOn f) := by
  ext x
  constructor
  · rintro ⟨b, hb, hlow, hhigh⟩
    obtain ⟨hfrom, hto⟩ := (reach_place f c q).inside b hb
    exact ⟨le_trans hfrom hlow, le_trans hhigh hto⟩
  · rintro ⟨hlow, hhigh⟩
    exact covers_place f c q x hlow hhigh

/-- A chart has at least one row. -/
theorem one_le_rows (c : Chart Rat) : 1 ≤ c.lengthOn .sequential := by
  induction c using inductParts with
  | ofTask t => exact le_refl 1
  | ofGroup flow corner first rest ih =>
    -- one part has a row, and the others take none away
    have hfirst : 1 ≤ first.lengthOn .sequential := ih first List.mem_cons_self
    cases flow with
    | parallel =>
      have hgroup := lengthOn_le_group (f := .sequential) (g := .parallel) (by decide) corner
        (List.mem_cons_self (a := first) (l := rest))
      exact le_trans hfirst hgroup
    | sequential =>
      have hrest : 0 ≤ (rest.map (lengthOn .sequential)).sum := List.sum_nonneg fun x hx => by
        obtain ⟨d, -, rfl⟩ := List.mem_map.1 hx
        exact lengthOn_nonneg .sequential d
      rw [lengthOn_group_self, List.map_cons, List.sum_cons]
      linarith

end Chart

end SpanChart
