/-
  PLACEMENT — giving every box of a chart its corner.

  A chart is measured once from the bottom up and then placed from the top down.  A group at a
  corner puts its parts in a row along its main axis: a cursor starts at the corner's own
  coordinate there and advances by each part's length, while on the cross axis each part is centred
  in the group's box.  Nothing that was stored before plays a part, so a chart may be placed as
  often as one likes, as a whole or part by part.

  Measuring (`Chart.measure`) gives the extent of a chart together with the chart it becomes at
  each place, so that no extent is folded again for every group around it.  What comes out is said
  without it by `place_task`, `place_group` and `placeRow`; nothing else about placing needs to be
  unfolded.

  A part is named by its path, the list of the positions to go down from the root.
-/
import SpanChart.Chart.Basic

namespace SpanChart

variable {α : Type} [Scalar α]

/-! ## Measuring -/

/-- A chart whose extent is known, and which can be put anywhere. -/
structure Measured (α : Type) [Scalar α] where
  extent : Extent α
  /-- The chart at a place. -/
  seated : Point α → Chart α

/-- Puts the parts of a group at `p` of extent `whole` in a row, the first of them at `cursor`. -/
def Measured.row (flow : Flow) (p : Point α) (whole : Extent α) (cursor : α) :
    List (Measured α) → List (Chart α)
  | [] => []
  | m :: ms =>
    m.seated (flow.seat p whole m.extent cursor) ::
      Measured.row flow p whole (cursor + flow.length m.extent) ms

namespace Chart

mutual

/-- Measures a chart and all its parts. -/
def measure : Chart α → Measured α
  | task t => ⟨t.extent, fun p => task { t with corner := p }⟩
  | group flow _ first rest =>
    let head := first.measure
    let tail := measureAll rest
    let whole := tail.foldl (fun e m => flow.extend e m.extent)
      (flow.extend Extent.zero head.extent)
    ⟨whole, fun p =>
      group flow p (head.seated (flow.seat p whole head.extent (flow.along p)))
        (Measured.row flow p whole (flow.along p + flow.length head.extent) tail)⟩

/-- Measures several charts. -/
def measureAll : List (Chart α) → List (Measured α)
  | [] => []
  | c :: cs => c.measure :: measureAll cs

end

theorem measureAll_eq_map (cs : List (Chart α)) : measureAll cs = cs.map measure := by
  induction cs with
  | nil => rfl
  | cons c cs ih => rw [measureAll, ih, List.map_cons]

mutual

/-- Measuring finds the extent. -/
theorem extent_measure : ∀ c : Chart α, c.measure.extent = c.extent
  | task _ => rfl
  | group flow _ first rest => by
    simp only [measure, extent]
    rw [extent_measure first]
    exact foldl_measureAll flow _ rest

theorem foldl_measureAll (flow : Flow) (sofar : Extent α) :
    ∀ cs : List (Chart α),
      (measureAll cs).foldl (fun e m => flow.extend e m.extent) sofar = extentOnto flow sofar cs
  | [] => rfl
  | c :: cs => by
    rw [measureAll, List.foldl_cons, extent_measure c, extentOnto]
    exact foldl_measureAll flow _ cs

end

/-! ## Placing a whole chart -/

/-- The chart with its box at `p` and the boxes of its parts inside. -/
def place (p : Point α) (c : Chart α) : Chart α := c.measure.seated p

/-- The parts of a group at `p` of extent `whole` in a row, the first of them at `cursor`. -/
def placeRow (flow : Flow) (p : Point α) (whole : Extent α) (cursor : α) :
    List (Chart α) → List (Chart α)
  | [] => []
  | c :: cs =>
    c.place (flow.seat p whole c.extent cursor) ::
      placeRow flow p whole (cursor + flow.length c.extent) cs

theorem row_measureAll (flow : Flow) (p : Point α) (whole : Extent α) (cursor : α)
    (cs : List (Chart α)) :
    Measured.row flow p whole cursor (measureAll cs) = placeRow flow p whole cursor cs := by
  induction cs generalizing cursor with
  | nil => rfl
  | cons c cs ih => rw [measureAll, Measured.row, placeRow, extent_measure, ih, place]

@[simp]
theorem place_task (p : Point α) (t : Task α) :
    (task t).place p = task { t with corner := p } :=
  rfl

/-- A group is placed by putting its parts in a row from its own corner on. -/
theorem place_group (p : Point α) (flow : Flow) (corner : Point α) (first : Chart α)
    (rest : List (Chart α)) :
    (group flow corner first rest).place p =
      group flow p
        (first.place
          (flow.seat p (group flow corner first rest).extent first.extent (flow.along p)))
        (placeRow flow p (group flow corner first rest).extent
          (flow.along p + flow.length first.extent) rest) := by
  have whole := extent_measure (group flow corner first rest)
  simp only [measure] at whole
  simp only [place, measure]
  rw [whole, row_measureAll, extent_measure first]

/-- A chart stands where it was placed. -/
@[simp]
theorem corner_place (p : Point α) (c : Chart α) : (c.place p).corner = p := by
  cases c with
  | task t => rfl
  | group flow corner first rest => rw [place_group]; rfl

/-! ## Placing a part -/

/-- The part at the end of a path. -/
def at? : List Nat → Chart α → Option (Chart α)
  | [], c => some c
  | i :: path, c => c.parts[i]?.bind (at? path)

/-- The chart with the part at the end of a path replaced by what `f` makes of it. -/
def modifyAt? (f : Chart α → Chart α) : List Nat → Chart α → Option (Chart α)
  | [], c => some (f c)
  | _ :: _, task _ => none
  | 0 :: path, group flow corner first rest =>
    (first.modifyAt? f path).map fun part => group flow corner part rest
  | (i + 1) :: path, group flow corner first rest =>
    (rest[i]?.bind (modifyAt? f path)).map fun part => group flow corner first (rest.set i part)

/-- There is something to modify at the end of a path just where there is a part. -/
theorem modifyAt?_isSome (f : Chart α → Chart α) (path : List Nat) (c : Chart α) :
    (c.modifyAt? f path).isSome = (c.at? path).isSome := by
  induction path generalizing c with
  | nil => cases c <;> rfl
  | cons i path ih =>
    cases c with
    | task t => rfl
    | group flow corner first rest =>
      cases i with
      | zero => simp [modifyAt?, at?, parts, ih]
      | succ i => cases h : rest[i]? <;> simp [modifyAt?, at?, parts, h, ih]

/-- The chart with the part at the end of a path, and only that, placed at `p`. -/
def placeAt? (path : List Nat) (p : Point α) (c : Chart α) : Option (Chart α) :=
  c.modifyAt? (place p) path

theorem placeAt?_nil (p : Point α) (c : Chart α) : c.placeAt? [] p = some (c.place p) := by
  cases c <;> rfl

end Chart

end SpanChart
