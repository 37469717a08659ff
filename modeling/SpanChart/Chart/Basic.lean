/-
  CHART — the composition tree of a fork-join run, with a place for each of its boxes.

  A chart is a task, or a group of charts that ran at once or one after another.  Two invariants
  are part of the type, so that nothing downstream has to ask for them:

  * a task does not end before it starts (`Task.ordered`); a NaN orders with nothing, so no task
    has one for a time;
  * a group has at least one part (`first`, and then the `rest`), so that a sequence always has a
    first part to enter and a last one to leave.

  What would break one of them is a `Fault`, and the two constructors that callers use,
  `Task.of?` and `Chart.group?`, report it.  How big a chart is (`Chart.extent`) is a function of
  the tree alone; where it stands is stored, because it is placed after it is built, and parts of
  it may be placed again.
-/
import SpanChart.Geometry

namespace SpanChart

variable {α : Type} [Scalar α]

/-! ## Tasks -/

/-- One row of a chart: an interval on one thread, in its place. -/
structure Task (α : Type) [Scalar α] where
  start : α
  finish : α
  /-- The worker whose colour the task has. -/
  thread : UInt64
  /-- Whether this is time in which nothing was recorded. -/
  idle : Bool
  /-- The upper left corner of the task's box. -/
  corner : Point α
  /-- Time runs forwards. -/
  ordered : start ≤ finish

/-- Why a chart could not be made. -/
inductive Fault where
  /-- A task would end before it starts, or one of its times is no number. -/
  | disorder
  /-- A group would have no parts. -/
  | emptyGroup
  /-- The span to be charted is not registered. -/
  | missingSpan (id : UInt64)
  /-- A span listed as a part of a sequence is not registered. -/
  | missingPart (id : UInt64)
  /-- A span is listed somewhere below itself. -/
  | cycle
  deriving Repr, DecidableEq

/-- What is reported where a fault ends everything.  A fault has no wording of its own: the run is
    over then and there, with an assertion that fails, a lookup that finds nothing or a recursion
    that does not end, and these lines only stand for that. -/
def Fault.message : Fault → String
  | .disorder => "Error: an interval would end before it starts\n"
  | .emptyGroup => "Error: a group would have no parts\n"
  | .missingSpan id => "Error: span " ++ toString id ++ " is not in the trace\n"
  | .missingPart id => "Error: span " ++ toString id ++ " of a sequence is not in the trace\n"
  | .cycle => "Error: a span descends from itself\n"

namespace Task

/-- A task that is not placed yet, unless its times are out of order. -/
def of? (start finish : α) (thread : UInt64) (idle : Bool) : Except Fault (Task α) :=
  if ordered : start ≤ finish then
    .ok ⟨start, finish, thread, idle, Point.origin, ordered⟩
  else
    .error .disorder

theorem of?_of_le {start finish : α} (ordered : start ≤ finish) (thread : UInt64) (idle : Bool) :
    of? start finish thread idle = .ok ⟨start, finish, thread, idle, Point.origin, ordered⟩ :=
  dif_pos ordered

theorem of?_of_not_le {start finish : α} (disorder : ¬start ≤ finish) (thread : UInt64)
    (idle : Bool) : of? start finish thread idle = .error .disorder :=
  dif_neg disorder

/-- A task takes as much room as it took time, and one row. -/
def extent (t : Task α) : Extent α := ⟨t.finish - t.start, 1⟩

/-- Where control flow enters: the middle of the upper side. -/
def entry (t : Task α) : Point α := ⟨t.corner.x + Scalar.half t.extent.width, t.corner.y⟩

/-- Where control flow leaves: the middle of the lower side. -/
def exit (t : Task α) : Point α := ⟨t.corner.x + Scalar.half t.extent.width, t.corner.y + 1⟩

end Task

/-! ## Charts -/

/-- A task, or at least one chart composed by a flow into a group with a corner of its own. -/
inductive Chart (α : Type) [Scalar α] where
  | task (t : Task α)
  | group (flow : Flow) (corner : Point α) (first : Chart α) (rest : List (Chart α))

namespace Chart

/-! ## Induction

  What holds of every task, and of a group whenever it holds of all its parts, holds of every
  chart.
-/

mutual

/-- Induction over charts: over tasks, and over groups from their parts. -/
@[elab_as_elim, induction_eliminator]
theorem induct {motive : Chart α → Prop} (ofTask : ∀ t, motive (task t))
    (ofGroup : ∀ flow corner first rest,
      motive first → (∀ c ∈ rest, motive c) → motive (group flow corner first rest)) :
    ∀ c : Chart α, motive c
  | task t => ofTask t
  | group flow corner first rest =>
    ofGroup flow corner first rest (induct ofTask ofGroup first) (induct_mem ofTask ofGroup rest)

/-- What induction gives for every one of several charts. -/
theorem induct_mem {motive : Chart α → Prop} (ofTask : ∀ t, motive (task t))
    (ofGroup : ∀ flow corner first rest,
      motive first → (∀ c ∈ rest, motive c) → motive (group flow corner first rest)) :
    ∀ cs : List (Chart α), ∀ c ∈ cs, motive c
  | [], _, h => absurd h List.not_mem_nil
  | d :: ds, c, h => by
    rcases List.mem_cons.1 h with h | h
    · exact h ▸ induct ofTask ofGroup d
    · exact induct_mem ofTask ofGroup ds c h

end

/-! ## Groups -/

/-- A group of the given parts that is not placed yet, unless there are none. -/
def group? (flow : Flow) : List (Chart α) → Except Fault (Chart α)
  | [] => .error .emptyGroup
  | first :: rest => .ok (.group flow Point.origin first rest)

/-- The upper left corner of the chart's box. -/
def corner : Chart α → Point α
  | task t => t.corner
  | group _ corner _ _ => corner

/-- The charts right below this one, in order. -/
def parts : Chart α → List (Chart α)
  | task _ => []
  | group _ _ first rest => first :: rest

/-! ## Extent

  The parts are folded in order, starting from no room at all, by what their flow says.  The order
  is part of the definition: in binary64 a sum depends on it.
-/

mutual

/-- How much room a chart takes. -/
def extent : Chart α → Extent α
  | task t => t.extent
  | group flow _ first rest => extentOnto flow (flow.extend Extent.zero first.extent) rest

/-- How much room a group takes that already has the extent `sofar` when these parts are added. -/
def extentOnto (flow : Flow) (sofar : Extent α) : List (Chart α) → Extent α
  | [] => sofar
  | c :: cs => extentOnto flow (flow.extend sofar c.extent) cs

end

theorem extentOnto_eq_foldl (flow : Flow) (sofar : Extent α) (cs : List (Chart α)) :
    extentOnto flow sofar cs = cs.foldl (fun e c => flow.extend e c.extent) sofar := by
  induction cs generalizing sofar with
  | nil => rfl
  | cons c cs ih => exact ih _

/-- The extent of a group is the fold of its parts' extents. -/
theorem extent_group (flow : Flow) (corner : Point α) (first : Chart α) (rest : List (Chart α)) :
    (group flow corner first rest).extent =
      (first :: rest).foldl (fun e c => flow.extend e c.extent) Extent.zero := by
  rw [extent, extentOnto_eq_foldl, List.foldl_cons]

/-! ## What a chart consists of -/

mutual

/-- The tasks of a chart, depth first. -/
def tasks : Chart α → List (Task α)
  | task t => [t]
  | group _ _ first rest => first.tasks ++ tasksOf rest

/-- The tasks of several charts, one chart after the other. -/
def tasksOf : List (Chart α) → List (Task α)
  | [] => []
  | c :: cs => c.tasks ++ tasksOf cs

end

theorem tasksOf_eq_flatMap (cs : List (Chart α)) : tasksOf cs = cs.flatMap tasks := by
  induction cs with
  | nil => rfl
  | cons c cs ih => rw [tasksOf, ih, List.flatMap_cons]

theorem tasks_group (flow : Flow) (corner : Point α) (first : Chart α) (rest : List (Chart α)) :
    (group flow corner first rest).tasks = (first :: rest).flatMap tasks := by
  rw [tasks, tasksOf_eq_flatMap, List.flatMap_cons]

/-- No chart is empty. -/
theorem tasks_ne_nil (c : Chart α) : c.tasks ≠ [] := by
  induction c with
  | ofTask t => exact List.cons_ne_nil _ _
  | ofGroup flow corner first rest ih _ =>
    rw [tasks]
    exact List.append_ne_nil_of_left_ne_nil ih _

mutual

/-- Every chart in this one, itself first, with the level it is at: each before its parts, and the
    parts in order. -/
def outline (level : Nat) : Chart α → List (Nat × Chart α)
  | task t => [(level, task t)]
  | group flow corner first rest =>
    (level, group flow corner first rest) ::
      (first.outline (level + 1) ++ outlineOf (level + 1) rest)

/-- The outlines of several charts at one level, one chart after the other. -/
def outlineOf (level : Nat) : List (Chart α) → List (Nat × Chart α)
  | [] => []
  | c :: cs => c.outline level ++ outlineOf level cs

end

theorem outlineOf_eq_flatMap (level : Nat) (cs : List (Chart α)) :
    outlineOf level cs = cs.flatMap (outline level) := by
  induction cs with
  | nil => rfl
  | cons c cs ih => rw [outlineOf, ih, List.flatMap_cons]

end Chart

end SpanChart
