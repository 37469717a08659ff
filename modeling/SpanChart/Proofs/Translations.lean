/-
  TRANSLATIONS — where a chart is placed makes no difference to how it looks there.

  A chart is laid out by differences: a part is put at its group's corner, past the lengths of the
  parts before it and half of the room left over.  No coordinate of the plane has a meaning of its
  own, so that a chart placed somewhere else is the same picture moved (`place_add`).  That takes
  exact arithmetic: half of the room left over is added to a corner, and in binary64 the sum may be
  rounded at one place and not at another.

  Moving a picture is one of the motions that laying out commutes with (`translation`).  That it is
  enough to move what was placed, and not what is placed, is because placing forgets where a chart
  stood (`place_congr`).
-/
import Mathlib.Data.Rat.Lemmas
import Mathlib.Tactic.Ring
import SpanChart.Proofs.Locality
import SpanChart.Proofs.Motions

namespace SpanChart

/-- The point that is as far from one as another is from the origin. -/
instance {α : Type} [Add α] : Add (Point α) := ⟨fun p d => ⟨p.x + d.x, p.y + d.y⟩⟩

/-- A task that is moved by a distance on each axis. -/
def Task.translate (d : Point Rat) (t : Task Rat) : Task Rat := { t with corner := t.corner + d }

theorem Flow.along_add (flow : Flow) (p d : Point Rat) :
    flow.along (p + d) = flow.along p + flow.along d := by
  cases flow <;> rfl

/-- A seat moves with the corner and the cursor of the row. -/
theorem Flow.seat_add (flow : Flow) (p d : Point Rat) (whole part : Extent Rat) (cursor : Rat) :
    flow.seat (p + d) whole part (cursor + flow.along d) = flow.seat p whole part cursor + d := by
  cases flow with
  | parallel => exact congrArg (Point.mk _) (add_right_comm p.y d.y _)
  | sequential => exact congrArg (fun x => (⟨x, _⟩ : Point Rat)) (add_right_comm p.x d.x _)

/-- **Moving a picture** on each axis by a distance, extents left as they are. -/
def translation (d : Point Rat) : Motion Rat Rat where
  point p := p + d
  extent e := e
  coordinate flow x := x + flow.along d
  task := Task.translate d
  extent_zero := rfl
  extent_extend _ _ _ := rfl
  along_point flow p := flow.along_add p d
  coordinate_add flow x e := add_right_comm x (flow.length e) (flow.along d)
  point_seat flow p whole part x := (flow.seat_add p d whole part x).symm
  extent_task _ := rfl
  task_place _ _ := rfl
  entry_task t := congrArg (fun x => (⟨x, t.corner.y + d.y⟩ : Point Rat))
    (add_right_comm t.corner.x d.x _)
  exit_task t := congrArg₂ Point.mk (add_right_comm t.corner.x d.x _)
    (add_right_comm t.corner.y d.y 1)

namespace Chart

theorem unplaced_move_translation (d : Point Rat) (c : Chart Rat) :
    (c.move (translation d)).unplaced = c.unplaced := by
  induction c using inductParts with
  | ofTask t => rfl
  | ofGroup flow corner first rest ih =>
    rw [move_group]
    refine unplaced_congr (c := group flow corner first rest) (List.cons_ne_nil _ _) rfl ?_
    show ((first :: rest).map (move (translation d))).map unplaced = (first :: rest).map unplaced
    rw [List.map_map]
    exact List.map_congr_left ih

/-- **A chart placed further on** is the chart moved further. -/
theorem place_add (c : Chart Rat) (p d : Point Rat) :
    c.place (p + d) = (c.place p).move (translation d) := by
  rw [← place_move (translation d) c p]
  exact place_congr (unplaced_move_translation d c).symm (p + d)

/-- One chart is another moved by a distance on each axis, as far as it can be seen. -/
structure Translated (d : Point Rat) (b b' : Chart Rat) : Prop where
  corner : b'.corner = b.corner + d
  extent : b'.extent = b.extent
  entries : b'.entries = b.entries.map (· + d)
  exits : b'.exits = b.exits.map (· + d)
  links : b'.innerLinks = b.innerLinks.map (Link.map (· + d))

theorem translated_move (d : Point Rat) (b : Chart Rat) :
    Translated d b (b.move (translation d)) where
  corner := corner_move (translation d) b
  extent := extent_move (translation d) b
  entries := entries_move (translation d) b
  exits := exits_move (translation d) b
  links := innerLinks_move (translation d) b

/-- **Placing a chart elsewhere moves it.**  At `p + d` a chart has the same charts inside as at
    `p`, at the same paths and built alike; each has the same extent, and its corner, the points
    that it is entered and left through and both ends of its links are moved by `d`, one for one and
    in the same order. -/
theorem placed_elsewhere (c : Chart Rat) (p d : Point Rat) :
    (c.place (p + d)).unplaced = (c.place p).unplaced ∧
      ∀ path, Option.Rel (Translated d) ((c.place p).at? path) ((c.place (p + d)).at? path) := by
  refine ⟨by rw [unplaced_place, unplaced_place], fun path => ?_⟩
  rw [place_add, at?_move]
  cases (c.place p).at? path with
  | none => exact .none
  | some b => exact .some (translated_move d b)

end Chart

end SpanChart
