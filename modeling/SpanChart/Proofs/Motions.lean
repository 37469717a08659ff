/-
  MOTIONS — changes of the plane that laying out does not notice.

  A chart is measured, placed and linked by a few operations on points, extents and coordinates.
  A `Motion` says what becomes of each of these, and of the tasks, in such a way that it makes no
  difference whether one of these operations comes before the motion or after it.  All the laws
  speak of one step; that they come to the same for whole charts is what this file proves, once for
  all motions:

  * measuring — `extent_move`;
  * placing — `place_move`, with the row of a group for the loop (`placeRow_move`);
  * entering, leaving and linking — `entries_move`, `exits_move`, `links_move`.

  The laws are those of one arithmetic into another, so that a motion may change what is counted in
  as well as where.
-/
import SpanChart.Proofs.Placed
import SpanChart.Chart.Links

namespace SpanChart

variable {α β : Type} [Scalar α] [Scalar β]

omit [Scalar α] [Scalar β] in
/-- The link between what becomes of the ends. -/
def Link.map (f : Point α → Point β) (l : Link α) : Link β := ⟨f l.source, f l.target⟩

/-- What becomes of points, extents, coordinates on the axis of a flow and tasks, where all that
    laying out does may be done before or after. -/
structure Motion (α β : Type) [Scalar α] [Scalar β] where
  point : Point α → Point β
  extent : Extent α → Extent β
  coordinate : Flow → α → β
  task : Task α → Task β
  extent_zero : extent Extent.zero = Extent.zero
  extent_extend : ∀ (flow : Flow) (a b : Extent α),
    extent (flow.extend a b) = flow.extend (extent a) (extent b)
  along_point : ∀ (flow : Flow) (p : Point α), flow.along (point p) = coordinate flow (flow.along p)
  coordinate_add : ∀ (flow : Flow) (x : α) (e : Extent α),
    coordinate flow (x + flow.length e) = coordinate flow x + flow.length (extent e)
  point_seat : ∀ (flow : Flow) (p : Point α) (whole part : Extent α) (x : α),
    point (flow.seat p whole part x) =
      flow.seat (point p) (extent whole) (extent part) (coordinate flow x)
  extent_task : ∀ t, (task t).extent = extent t.extent
  task_place : ∀ (t : Task α) (p : Point α),
    task { t with corner := p } = { task t with corner := point p }
  entry_task : ∀ t, (task t).entry = point t.entry
  exit_task : ∀ t, (task t).exit = point t.exit

namespace Chart

variable (m : Motion α β)

mutual

/-- What becomes of a chart: of its tasks, and of the corners of its groups. -/
def move : Chart α → Chart β
  | task t => task (m.task t)
  | group flow corner first rest => group flow (m.point corner) first.move (moveAll rest)

/-- What becomes of several charts. -/
def moveAll : List (Chart α) → List (Chart β)
  | [] => []
  | c :: cs => c.move :: moveAll cs

end

theorem moveAll_eq_map (cs : List (Chart α)) : moveAll m cs = cs.map (move m) := by
  induction cs with
  | nil => rfl
  | cons c cs ih => rw [moveAll, ih, List.map_cons]

theorem move_group (flow : Flow) (corner : Point α) (first : Chart α) (rest : List (Chart α)) :
    (group flow corner first rest).move m =
      group flow (m.point corner) (first.move m) (rest.map (move m)) := by
  rw [move, moveAll_eq_map]

/-! ## What a chart consists of -/

theorem corner_move (c : Chart α) : (c.move m).corner = m.point c.corner := by
  cases c with
  | task t =>
    -- a task stands where it stands
    have h := congrArg Task.corner (m.task_place t t.corner)
    exact h
  | group flow corner first rest => rfl

theorem parts_move (c : Chart α) : (c.move m).parts = c.parts.map (move m) := by
  cases c with
  | task t => rfl
  | group flow corner first rest => rw [move_group]; rfl

/-- Paths lead to what becomes of what they led to. -/
theorem at?_move (path : List Nat) (c : Chart α) :
    (c.move m).at? path = (c.at? path).map (move m) := by
  induction path generalizing c with
  | nil => rfl
  | cons i path ih =>
    rw [at?_cons, at?_cons, parts_move, List.getElem?_map]
    cases c.parts[i]? with
    | none => rfl
    | some d => exact ih d

theorem tasks_move (c : Chart α) : (c.move m).tasks = c.tasks.map m.task := by
  induction c using inductParts with
  | ofTask t => rfl
  | ofGroup flow corner first rest ih =>
    rw [move_group, tasks_group, tasks_group, ← List.map_cons, List.flatMap_map, List.map_flatMap]
    exact List.flatMap_congr ih

/-! ## Measuring and placing -/

/-- Extents add up before the motion or after it. -/
theorem foldl_extend_move (flow : Flow) {cs : List (Chart α)} (e : Extent α)
    (h : ∀ c ∈ cs, (c.move m).extent = m.extent c.extent) :
    (cs.map (move m)).foldl (fun e c => flow.extend e c.extent) (m.extent e) =
      m.extent (cs.foldl (fun e c => flow.extend e c.extent) e) := by
  induction cs generalizing e with
  | nil => rfl
  | cons c cs ih =>
    rw [List.map_cons, List.foldl_cons, List.foldl_cons, h c List.mem_cons_self,
      ← m.extent_extend]
    exact ih _ fun d hd => h d (List.mem_cons_of_mem c hd)

/-- **Measuring** before the motion or after it. -/
theorem extent_move (c : Chart α) : (c.move m).extent = m.extent c.extent := by
  induction c using inductParts with
  | ofTask t => exact m.extent_task t
  | ofGroup flow corner first rest ih =>
    rw [move_group, extent_group, extent_group, ← List.map_cons, ← m.extent_zero]
    exact foldl_extend_move m flow _ ih

/-- A row that is placed after the motion is the row placed before it. -/
theorem placeRow_move (flow : Flow) (p : Point α) (whole : Extent α) {cs : List (Chart α)}
    (hplace : ∀ c ∈ cs, ∀ q, (c.move m).place (m.point q) = (c.place q).move m) (cursor : α) :
    placeRow flow (m.point p) (m.extent whole) (m.coordinate flow cursor) (cs.map (move m)) =
      (placeRow flow p whole cursor cs).map (move m) := by
  induction cs generalizing cursor with
  | nil => rfl
  | cons c cs ih =>
    rw [List.map_cons, placeRow, placeRow, List.map_cons, extent_move, ← m.point_seat,
      ← m.coordinate_add, hplace c List.mem_cons_self,
      ih fun d hd => hplace d (List.mem_cons_of_mem c hd)]

/-- **Placing** before the motion or after it. -/
theorem place_move (c : Chart α) (p : Point α) :
    (c.move m).place (m.point p) = (c.place p).move m := by
  induction c using inductParts generalizing p with
  | ofTask t => exact congrArg task (m.task_place t p).symm
  | ofGroup flow corner first rest ih =>
    have hrow := placeRow_move m flow p (group flow corner first rest).extent
      (fun c hc q => ih c hc q) (flow.along p)
    rw [placeRow, List.map_cons, List.map_cons, placeRow] at hrow
    obtain ⟨hfirst, hrest⟩ := List.cons.inj hrow
    have hextent := extent_move m (group flow corner first rest)
    rw [move_group] at hextent
    rw [place_group, move_group, move_group, place_group, hextent, m.along_point, hfirst, hrest]

/-! ## Entering, leaving and linking -/

theorem entries_move (c : Chart α) : (c.move m).entries = c.entries.map m.point := by
  induction c using inductParts with
  | ofTask t => exact congrArg (fun p => [p]) (m.entry_task t)
  | ofGroup flow corner first rest ih =>
    rw [move_group]
    cases flow with
    | parallel =>
      rw [entries, entries, entriesOf_eq_flatMap, entriesOf_eq_flatMap, ← List.flatMap_cons,
        ← List.flatMap_cons, ← List.map_cons, List.flatMap_map, List.map_flatMap]
      exact List.flatMap_congr ih
    | sequential => exact ih first List.mem_cons_self

theorem exits_move (c : Chart α) : (c.move m).exits = c.exits.map m.point := by
  induction c using inductParts with
  | ofTask t => exact congrArg (fun p => [p]) (m.exit_task t)
  | ofGroup flow corner first rest ih =>
    rw [move_group]
    cases flow with
    | parallel =>
      rw [exits, exits, exitsOf_eq_flatMap, exitsOf_eq_flatMap, ← List.flatMap_cons,
        ← List.flatMap_cons, ← List.map_cons, List.flatMap_map, List.map_flatMap]
      exact List.flatMap_congr ih
    | sequential =>
      rw [exits_sequential, exits_sequential]
      simp only [← List.map_cons, List.getLast_map]
      exact ih _ (List.getLast_mem _)

theorem linksAfter_move {cs : List (Chart α)}
    (hlinks : ∀ c ∈ cs, ∀ incoming,
      (c.move m).links (incoming.map m.point) = (c.links incoming).map (Link.map m.point))
    (incoming : List (Point α)) :
    linksAfter (incoming.map m.point) (cs.map (move m)) =
      (linksAfter incoming cs).map (Link.map m.point) := by
  induction cs generalizing incoming with
  | nil => rfl
  | cons c cs ih =>
    rw [List.map_cons, linksAfter, linksAfter, List.map_append, hlinks c List.mem_cons_self,
      exits_move, ih fun d hd => hlinks d (List.mem_cons_of_mem c hd)]

/-- **Linking** before the motion or after it. -/
theorem links_move (c : Chart α) (incoming : List (Point α)) :
    (c.move m).links (incoming.map m.point) = (c.links incoming).map (Link.map m.point) := by
  induction c using inductParts generalizing incoming with
  | ofTask t =>
    rw [move, links, links, List.map_map, List.map_map, m.entry_task]
    rfl
  | ofGroup flow corner first rest ih =>
    rw [move_group]
    cases flow with
    | parallel =>
      rw [links, links, linksBeside_eq_flatMap, linksBeside_eq_flatMap, ← List.flatMap_cons,
        ← List.flatMap_cons, ← List.map_cons, List.flatMap_map, List.map_flatMap]
      exact List.flatMap_congr fun c hc => ih c hc incoming
    | sequential =>
      rw [links, links, ih first List.mem_cons_self, exits_move,
        linksAfter_move m fun c hc => ih c (List.mem_cons_of_mem first hc), List.map_append]

theorem innerLinks_move (c : Chart α) :
    (c.move m).innerLinks = c.innerLinks.map (Link.map m.point) :=
  links_move m c []

end Chart

end SpanChart
