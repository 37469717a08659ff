/-
  REGROUPING — how a chart is bracketed does not show.

  The same run can be charted with more groups or with fewer.  A group may stand inside another of
  its own flow, where its parts might as well be parts of the outer one, and a group may have a
  single part, which might as well stand alone.  `Regroups` takes such brackets away, one pair at a
  time and anywhere in a chart.  In exact arithmetic nobody can tell from what is drawn: neither
  the extent changes, nor any task, its place included, nor where the chart is entered and left,
  nor a single link (`regrouping_invisible`).

  There is one idea to it.  A run of neighbouring parts may be replaced by another run if the two,
  each taken for a group of its own, look the same (`Interchangeable.replace`).  Taking brackets
  away is that, with a group by itself as the one run and its parts as the other, and a change
  further down is that too, with runs of one part.

  That linking allows it is true in any arithmetic (`Alike.replace`).  Placing is what needs
  exactness, and it needs it in one point: a part that is centred in a group which is centred in
  another is centred in that one (`seat_seat`), so that a row looks the same whether its cursor
  runs through one group or through the next (`placeRow_seat`).
-/
import SpanChart.Proofs.Axes
import SpanChart.Chart.Links

namespace SpanChart

variable {α : Type} [Scalar α]

namespace Chart

/-! ## Taking brackets away -/

/-- One pair of brackets less, somewhere in a chart. -/
inductive Regroups : Chart α → Chart α → Prop
  /-- A group among the parts of another of its flow gives way to its own parts. -/
  | splice {flow : Flow} {corner inner : Point α} {first first' part : Chart α}
      {rest rest' parts before after : List (Chart α)}
      (nested : first :: rest = before ++ group flow inner part parts :: after)
      (spliced : first' :: rest' = before ++ (part :: parts) ++ after) :
      Regroups (group flow corner first rest) (group flow corner first' rest')
  /-- A group of one part gives way to that part. -/
  | unwrap (flow : Flow) (corner : Point α) (only : Chart α) :
      Regroups (group flow corner only []) only
  /-- The brackets are in one of the parts. -/
  | inside {flow : Flow} {corner : Point α} {first first' part part' : Chart α}
      {rest rest' before after : List (Chart α)}
      (old : first :: rest = before ++ part :: after)
      (new : first' :: rest' = before ++ part' :: after) (below : Regroups part part') :
      Regroups (group flow corner first rest) (group flow corner first' rest')

/-! ## Charts that look alike where they stand -/

/-- Two charts have the same tasks in the same places, and are entered, left and linked alike. -/
structure Alike (c d : Chart α) : Prop where
  tasks : d.tasks = c.tasks
  entries : d.entries = c.entries
  exits : d.exits = c.exits
  links : ∀ incoming, d.links incoming = c.links incoming

namespace Alike

theorem refl (c : Chart α) : Alike c c := ⟨rfl, rfl, rfl, fun _ => rfl⟩

theorem symm {c d : Chart α} (h : Alike c d) : Alike d c :=
  ⟨h.tasks.symm, h.entries.symm, h.exits.symm, fun incoming => (h.links incoming).symm⟩

theorem trans {c d e : Chart α} (h : Alike c d) (h' : Alike d e) : Alike c e :=
  ⟨h'.tasks.trans h.tasks, h'.entries.trans h.entries, h'.exits.trans h.exits,
    fun incoming => (h'.links incoming).trans (h.links incoming)⟩

end Alike

theorem entries_parallel (corner : Point α) (first : Chart α) (rest : List (Chart α)) :
    (group .parallel corner first rest).entries = (first :: rest).flatMap entries := by
  rw [entries, entriesOf_eq_flatMap, List.flatMap_cons]

theorem exits_parallel (corner : Point α) (first : Chart α) (rest : List (Chart α)) :
    (group .parallel corner first rest).exits = (first :: rest).flatMap exits := by
  rw [exits, exitsOf_eq_flatMap, List.flatMap_cons]

theorem links_parallel (corner : Point α) (first : Chart α) (rest : List (Chart α))
    (incoming : List (Point α)) :
    (group .parallel corner first rest).links incoming =
      (first :: rest).flatMap (links incoming) := by
  rw [links, linksBeside_eq_flatMap, List.flatMap_cons]

/-- Where control flow is after charts that are run one after another: at the exits of the last, or
    where it was if there are none. -/
def leave (incoming : List (Point α)) (cs : List (Chart α)) : List (Point α) :=
  cs.foldl (fun _ c => c.exits) incoming

/-- A sequence is left where its last part is, wherever it was entered from. -/
theorem exits_eq_leave (corner : Point α) (first : Chart α) (rest : List (Chart α))
    (incoming : List (Point α)) :
    (group .sequential corner first rest).exits = leave incoming (first :: rest) := by
  rw [exits_sequential]
  induction rest generalizing first incoming with
  | nil => rfl
  | cons second rest ih => exact ih second first.exits

theorem linksAfter_append (incoming : List (Point α)) (cs ds : List (Chart α)) :
    linksAfter incoming (cs ++ ds) =
      linksAfter incoming cs ++ linksAfter (leave incoming cs) ds := by
  induction cs generalizing incoming with
  | nil => rfl
  | cons c cs ih =>
    rw [List.cons_append, linksAfter, linksAfter, ih, List.append_assoc]
    rfl

/-- A group of one part looks like that part. -/
theorem alike_single (flow : Flow) (corner : Point α) (c : Chart α) :
    Alike (group flow corner c []) c := by
  constructor
  · rw [tasks_group, List.flatMap_singleton]
  · cases flow with
    | parallel => rw [entries_parallel, List.flatMap_singleton]
    | sequential => rfl
  · cases flow with
    | parallel => rw [exits_parallel, List.flatMap_singleton]
    | sequential => rw [exits_sequential, List.getLast_singleton]
  · intro incoming
    cases flow with
    | parallel => rw [links_parallel, List.flatMap_singleton]
    | sequential => exact (List.append_nil _).symm

section Replace

variable {flow : Flow} {p q corner corner' : Point α} {first first' x y : Chart α}
  {rest rest' xs ys before after : List (Chart α)}

/-- Where control flow is after a run does not tell runs apart that are left alike. -/
theorem leave_congr (h : (group .sequential q y ys).exits = (group .sequential p x xs).exits)
    (incoming : List (Point α)) : leave incoming (y :: ys) = leave incoming (x :: xs) := by
  rw [← exits_eq_leave q, ← exits_eq_leave p, h]

section Parts

variable (old : first :: rest = before ++ (x :: xs) ++ after)
  (new : first' :: rest' = before ++ (y :: ys) ++ after)

include old new

theorem entries_replace (h : (group flow q y ys).entries = (group flow p x xs).entries) :
    (group flow corner' first' rest').entries = (group flow corner first rest).entries := by
  cases flow with
  | parallel =>
    rw [entries_parallel, entries_parallel] at h ⊢
    rw [old, new]
    simp only [List.flatMap_append, h]
  | sequential =>
    -- what counts is the first part, which is in the run only if nothing is before it
    cases before with
    | nil =>
      obtain ⟨rfl, -⟩ := List.cons.inj old
      obtain ⟨rfl, -⟩ := List.cons.inj new
      exact h
    | cons b before =>
      obtain ⟨rfl, -⟩ := List.cons.inj old
      obtain ⟨rfl, -⟩ := List.cons.inj new
      rfl

theorem exits_replace (h : (group flow q y ys).exits = (group flow p x xs).exits) :
    (group flow corner' first' rest').exits = (group flow corner first rest).exits := by
  cases flow with
  | parallel =>
    rw [exits_parallel, exits_parallel] at h ⊢
    rw [old, new]
    simp only [List.flatMap_append, h]
  | sequential =>
    have hleave := leave_congr h (leave [] before)
    rw [exits_eq_leave _ _ _ [], exits_eq_leave _ _ _ [], old, new]
    unfold leave at hleave ⊢
    simp only [List.foldl_append, hleave]

theorem links_replace (hexits : (group flow q y ys).exits = (group flow p x xs).exits)
    (h : ∀ incoming, (group flow q y ys).links incoming = (group flow p x xs).links incoming)
    (incoming : List (Point α)) :
    (group flow corner' first' rest').links incoming =
      (group flow corner first rest).links incoming := by
  cases flow with
  | parallel =>
    have hlinks := h incoming
    rw [links_parallel, links_parallel] at hlinks ⊢
    rw [old, new]
    simp only [List.flatMap_append, hlinks]
  | sequential =>
    have hlinks : linksAfter (leave incoming before) (y :: ys) =
        linksAfter (leave incoming before) (x :: xs) := h (leave incoming before)
    have hleave := leave_congr hexits (leave incoming before)
    show linksAfter incoming (first' :: rest') = linksAfter incoming (first :: rest)
    rw [old, new]
    simp only [List.append_assoc, linksAfter_append, hlinks, hleave]

/-- **A run of parts may be replaced** by another that looks the same as a group.  What corners the
    groups have themselves does not show. -/
theorem Alike.replace (h : Alike (group flow p x xs) (group flow q y ys)) :
    Alike (group flow corner first rest) (group flow corner' first' rest') where
  tasks := by
    have htasks := h.tasks
    rw [tasks_group, tasks_group] at htasks ⊢
    rw [old, new]
    simp only [List.flatMap_append, htasks]
  entries := entries_replace old new h.entries
  exits := exits_replace old new h.exits
  links := links_replace old new h.exits h.links

end Parts

end Replace

/-! ## Rows in exact arithmetic -/

/-- A part that is centred in a group which is centred in another is centred in that one. -/
theorem seat_seat (flow : Flow) (p : Point Rat) (whole inner part : Extent Rat) (x y : Rat) :
    flow.seat (flow.seat p whole inner x) inner part y = flow.seat p whole part y := by
  cases flow with
  | parallel =>
    have hy : p.y + (whole.height - inner.height) / 2 + (inner.height - part.height) / 2 =
        p.y + (whole.height - part.height) / 2 := by ring
    exact congrArg (Point.mk y) hy
  | sequential =>
    have hx : p.x + (whole.width - inner.width) / 2 + (inner.width - part.width) / 2 =
        p.x + (whole.width - part.width) / 2 := by ring
    exact congrArg (Point.mk · y) hx

/-- What takes up all the room is seated in the corner. -/
theorem seat_self (flow : Flow) (p : Point Rat) (whole : Extent Rat) :
    flow.seat p whole whole (flow.along p) = p := by
  have hhalf : ∀ x : Rat, (x - x) / 2 = 0 := fun x => by rw [sub_self, zero_div]
  cases flow with
  | parallel =>
    have hy : p.y + (whole.height - whole.height) / 2 = p.y := by rw [hhalf, add_zero]
    exact congrArg (Point.mk p.x) hy
  | sequential =>
    have hx : p.x + (whole.width - whole.width) / 2 = p.x := by rw [hhalf, add_zero]
    exact congrArg (Point.mk · p.y) hx

/-- A row inside a row of the same flow stands as if it were part of it. -/
theorem placeRow_seat (flow : Flow) (p : Point Rat) (whole inner : Extent Rat) (x cursor : Rat)
    (cs : List (Chart Rat)) :
    placeRow flow (flow.seat p whole inner x) inner cursor cs =
      placeRow flow p whole cursor cs := by
  induction cs generalizing cursor with
  | nil => rfl
  | cons c cs ih => rw [placeRow, placeRow, seat_seat, ih]

theorem placeRow_append (flow : Flow) (p : Point Rat) (whole : Extent Rat) (cursor : Rat)
    (cs ds : List (Chart Rat)) :
    placeRow flow p whole cursor (cs ++ ds) =
      placeRow flow p whole cursor cs ++
        placeRow flow p whole (cursor + (cs.map (lengthOn flow)).sum) ds := by
  induction cs generalizing cursor with
  | nil => rw [List.map_nil, List.sum_nil, add_zero]; rfl
  | cons c cs ih =>
    rw [List.cons_append, placeRow, placeRow, ih, List.map_cons, List.sum_cons, ← add_assoc]
    rfl

/-- The row of a group, with a run of its parts taken apart from what is before and after. -/
theorem placeRow_run (flow : Flow) (p : Point Rat) (whole : Extent Rat) {first : Chart Rat}
    {rest before run after : List (Chart Rat)} (h : first :: rest = before ++ run ++ after) :
    first.place (flow.seat p whole first.extent (flow.along p)) ::
        placeRow flow p whole (flow.along p + flow.length first.extent) rest =
      placeRow flow p whole (flow.along p) before ++
        placeRow flow p whole (flow.along p + (before.map (lengthOn flow)).sum) run ++
        placeRow flow p whole (flow.along p + (before.map (lengthOn flow)).sum +
          (run.map (lengthOn flow)).sum) after := by
  have hrow := congrArg (placeRow flow p whole (flow.along p)) h
  rwa [placeRow_append, placeRow_append, List.map_append, List.sum_append, ← add_assoc] at hrow

/-! ## Extents in exact arithmetic -/

/-- Room that is added up may be added up in any order of brackets. -/
theorem extend_assoc (flow : Flow) (a b c : Extent Rat) :
    flow.extend (flow.extend a b) c = flow.extend a (flow.extend b c) := by
  cases flow with
  | parallel =>
    show Extent.beside (Extent.beside a b) c = Extent.beside a (Extent.beside b c)
    simp only [Extent.beside, larger_eq_max, add_assoc, max_assoc]
  | sequential =>
    show Extent.above (Extent.above a b) c = Extent.above a (Extent.above b c)
    simp only [Extent.above, larger_eq_max, add_assoc, max_assoc]

/-- No chart takes less than no room, so that nothing is added to it by starting from none. -/
theorem zero_extend (flow : Flow) (c : Chart Rat) :
    flow.extend Extent.zero c.extent = c.extent := by
  have hwidth : max 0 c.extent.width = c.extent.width :=
    max_eq_right (lengthOn_nonneg .parallel c)
  have hheight : max 0 c.extent.height = c.extent.height :=
    max_eq_right (lengthOn_nonneg .sequential c)
  cases flow with
  | parallel =>
    show Extent.beside ⟨0, 0⟩ c.extent = c.extent
    rw [Extent.beside, larger_eq_max, zero_add, hheight]
  | sequential =>
    show Extent.above ⟨0, 0⟩ c.extent = c.extent
    rw [Extent.above, larger_eq_max, zero_add, hwidth]

/-- A group adds to the room of another of its flow what its parts add to it one by one. -/
theorem extend_extent_group (flow : Flow) (corner : Point Rat) (first : Chart Rat)
    (rest : List (Chart Rat)) (sofar : Extent Rat) :
    flow.extend sofar (group flow corner first rest).extent =
      (first :: rest).foldl (fun e c => flow.extend e c.extent) sofar := by
  rw [extent_group, List.foldl_cons, List.foldl_cons, zero_extend]
  generalize first.extent = room
  induction rest generalizing room with
  | nil => rfl
  | cons c cs ih => rw [List.foldl_cons, List.foldl_cons, ih, extend_assoc]

/-! ## Charts that look alike wherever they stand -/

/-- Two charts take the same room, and look alike wherever they are placed. -/
structure Interchangeable (c d : Chart Rat) : Prop where
  extent : d.extent = c.extent
  alike : ∀ p, Alike (c.place p) (d.place p)

/-- A group in a row has its parts where they would stand in the row themselves. -/
theorem place_seat_group (flow : Flow) (p corner : Point Rat) (whole : Extent Rat) (cursor : Rat)
    (first : Chart Rat) (rest : List (Chart Rat)) :
    (group flow corner first rest).place
        (flow.seat p whole (group flow corner first rest).extent cursor) =
      group flow (flow.seat p whole (group flow corner first rest).extent cursor)
        (first.place (flow.seat p whole first.extent cursor))
        (placeRow flow p whole (cursor + flow.length first.extent) rest) := by
  rw [place_group, flow.along_seat_self, seat_seat, placeRow_seat]

namespace Interchangeable

variable {flow : Flow} {corner corner' : Point Rat} {first first' x y c d e : Chart Rat}
  {rest rest' xs ys before after : List (Chart Rat)}

theorem symm (h : Interchangeable c d) : Interchangeable d c :=
  ⟨h.extent.symm, fun p => (h.alike p).symm⟩

theorem trans (h : Interchangeable c d) (h' : Interchangeable d e) : Interchangeable c e :=
  ⟨h'.extent.trans h.extent, fun p => (h.alike p).trans (h'.alike p)⟩

/-- Where a group stood before it is placed does not matter. -/
theorem of_corner (flow : Flow) (corner corner' : Point Rat) (first : Chart Rat)
    (rest : List (Chart Rat)) :
    Interchangeable (group flow corner first rest) (group flow corner' first rest) := by
  refine ⟨rfl, fun p => ?_⟩
  have hplace : (group flow corner' first rest).place p =
      (group flow corner first rest).place p := rfl
  rw [hplace]
  exact .refl _

/-- A group of one part takes the room of that part and places it where the group is. -/
theorem single (flow : Flow) (corner : Point Rat) (c : Chart Rat) :
    Interchangeable (group flow corner c []) c := by
  have hextent : (group flow corner c []).extent = c.extent := zero_extend flow c
  refine ⟨hextent.symm, fun p => ?_⟩
  rw [place_group, hextent, seat_self]
  exact alike_single flow p (c.place p)

/-- **A run of parts may be replaced** by another that looks the same as a group, wherever the
    whole is placed.  The rest of the row does not move, because the cursor comes out of both runs
    at the same coordinate. -/
theorem replace (h : Interchangeable (group flow corner x xs) (group flow corner' y ys))
    (old : first :: rest = before ++ (x :: xs) ++ after)
    (new : first' :: rest' = before ++ (y :: ys) ++ after) :
    Interchangeable (group flow corner first rest) (group flow corner' first' rest') := by
  have hextent : (group flow corner' first' rest').extent =
      (group flow corner first rest).extent := by
    rw [extent_group, extent_group, old, new]
    simp only [List.foldl_append]
    rw [← extend_extent_group flow corner' y ys, ← extend_extent_group flow corner x xs, h.extent]
  have hlength : ((y :: ys).map (lengthOn flow)).sum = ((x :: xs).map (lengthOn flow)).sum := by
    rw [← lengthOn_group_self flow corner', ← lengthOn_group_self flow corner, lengthOn, lengthOn,
      h.extent]
  refine ⟨hextent, fun p => ?_⟩
  rw [place_group, place_group, hextent]
  generalize (group flow corner first rest).extent = whole
  -- where the run stands in the row, it is what it would be as a group placed there
  have hrun := h.alike (flow.seat p whole (group flow corner x xs).extent
    (flow.along p + (before.map (lengthOn flow)).sum))
  rw [place_seat_group, ← h.extent, place_seat_group] at hrun
  exact hrun.replace (placeRow_run flow p whole old) (hlength ▸ placeRow_run flow p whole new)

end Interchangeable

/-! ## Brackets -/

/-- **Brackets do not show.**  Of a chart with a pair of brackets less, in exact arithmetic, the
    extent is the same, and wherever it is placed so are the tasks, with their order and their
    places, the points it is entered and left through, and its links. -/
theorem regrouping_invisible {c d : Chart Rat} (h : Regroups c d) :
    d.extent = c.extent ∧ ∀ p,
      (d.place p).tasks = (c.place p).tasks ∧
      (d.place p).entries = (c.place p).entries ∧
      (d.place p).exits = (c.place p).exits ∧
      (d.place p).innerLinks = (c.place p).innerLinks := by
  suffices hsame : Interchangeable c d by
    refine ⟨hsame.extent, fun p => ?_⟩
    have halike := hsame.alike p
    exact ⟨halike.tasks, halike.entries, halike.exits, halike.links []⟩
  induction h with
  | @splice flow corner inner first first' part rest rest' parts before after nested spliced =>
    -- the run of parts that is bracketed may stand for the group of it, alone or among others
    have hrun : Interchangeable (group flow corner (group flow inner part parts) [])
        (group flow corner part parts) :=
      (Interchangeable.single _ _ _).trans (.of_corner _ _ _ _ _)
    exact hrun.replace (by rw [nested, List.append_assoc]; rfl) spliced
  | unwrap flow corner only => exact .single flow corner only
  | @inside flow corner first first' part part' rest rest' before after old new _ ih =>
    have hrun : Interchangeable (group flow corner part []) (group flow corner part' []) :=
      ((Interchangeable.single _ _ _).trans ih).trans (Interchangeable.single _ _ _).symm
    exact hrun.replace (by rw [old, List.append_assoc]; rfl) (by rw [new, List.append_assoc]; rfl)

/-- A task of its own on thread `thread`. -/
def interval (start finish : Rat) (thread : UInt64) (ordered : start ≤ finish) : Chart Rat :=
  task ⟨start, finish, thread, false, Point.origin, ordered⟩

/-- A join as the first part of another, after a task. -/
def joinInJoin : Chart Rat :=
  group .sequential Point.origin (interval 0 1 0 (by decide))
    [group .parallel Point.origin
      (group .parallel Point.origin (interval 1 3 1 (by decide)) [interval 1 4 2 (by decide)])
      [interval 2 4 3 (by decide)]]

/-- One join instead. -/
def oneJoin : Chart Rat :=
  group .sequential Point.origin (interval 0 1 0 (by decide))
    [group .parallel Point.origin (interval 1 3 1 (by decide))
      [interval 1 4 2 (by decide), interval 2 4 3 (by decide)]]

/-- Brackets that are not at the top, and not the last ones there. -/
theorem regrouping_invisible_joinInJoin :
    Regroups joinInJoin oneJoin ∧ joinInJoin.extent = ⟨7, 2⟩ ∧ oneJoin.extent = joinInJoin.extent ∧
      ∀ p, (oneJoin.place p).tasks = (joinInJoin.place p).tasks ∧
        (oneJoin.place p).entries = (joinInJoin.place p).entries ∧
        (oneJoin.place p).exits = (joinInJoin.place p).exits ∧
        (oneJoin.place p).innerLinks = (joinInJoin.place p).innerLinks := by
  have h : Regroups joinInJoin oneJoin :=
    @Regroups.inside _ _ _ _ _ _ _ _ _ _ [interval 0 1 0 (by decide)] [] rfl rfl
      (@Regroups.splice _ _ _ _ _ _ _ _ _ _ _ [] [interval 2 4 3 (by decide)] rfl rfl)
  exact ⟨h, by decide +kernel, regrouping_invisible h⟩

end Chart

end SpanChart
