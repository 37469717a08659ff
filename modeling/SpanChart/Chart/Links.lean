/-
  LINKS — the control flow that a chart draws.

  A task is entered at the middle of its upper side and left at the middle of its lower one.  A
  parallel group is entered, and left, through all of its parts at once; a sequential group is
  entered through its first part and left through its last.  A link is drawn from every exit of a
  part of a sequence to every entry of the part after it, however deep inside the two parts these
  lie.

  The links are not drawn where the two parts meet.  Going down the chart, each part is handed the
  points that it is entered from: the parts of a parallel group all get what the group got, the
  first part of a sequence gets what the sequence got, and any other part the exits of the one
  before it.  A task ends the descent with one link for each of those points.
-/
import SpanChart.Chart.Basic

namespace SpanChart.Chart

variable {α : Type} [Scalar α]

/-! ## Where a chart is entered and left -/

mutual

/-- The points where control flow enters a chart. -/
def entries : Chart α → List (Point α)
  | task t => [t.entry]
  | group .parallel _ first rest => first.entries ++ entriesOf rest
  | group .sequential _ first _ => first.entries

/-- The entries of several charts, one chart after the other. -/
def entriesOf : List (Chart α) → List (Point α)
  | [] => []
  | c :: cs => c.entries ++ entriesOf cs

end

theorem entriesOf_eq_flatMap (cs : List (Chart α)) : entriesOf cs = cs.flatMap entries := by
  induction cs with
  | nil => rfl
  | cons c cs ih => rw [entriesOf, ih, List.flatMap_cons]

mutual

/-- The points where control flow leaves a chart. -/
def exits : Chart α → List (Point α)
  | task t => [t.exit]
  | group .parallel _ first rest => first.exits ++ exitsOf rest
  | group .sequential _ first [] => first.exits
  | group .sequential _ _ (second :: rest) => exitsOfLast (second :: rest)

/-- The exits of several charts, one chart after the other. -/
def exitsOf : List (Chart α) → List (Point α)
  | [] => []
  | c :: cs => c.exits ++ exitsOf cs

/-- The exits of the last of several charts. -/
def exitsOfLast : List (Chart α) → List (Point α)
  | [] => []
  | [c] => c.exits
  | _ :: c :: cs => exitsOfLast (c :: cs)

end

theorem exitsOf_eq_flatMap (cs : List (Chart α)) : exitsOf cs = cs.flatMap exits := by
  induction cs with
  | nil => rfl
  | cons c cs ih => rw [exitsOf, ih, List.flatMap_cons]

theorem exitsOfLast_eq_getLast (cs : List (Chart α)) (h : cs ≠ []) :
    exitsOfLast cs = (cs.getLast h).exits := by
  induction cs with
  | nil => exact absurd rfl h
  | cons c cs ih =>
    cases cs with
    | nil => rw [exitsOfLast]; rfl
    | cons d ds => rw [exitsOfLast, ih (List.cons_ne_nil d ds)]; rfl

/-- A sequence is left through its last part. -/
theorem exits_sequential (corner : Point α) (first : Chart α) (rest : List (Chart α)) :
    (group .sequential corner first rest).exits =
      ((first :: rest).getLast (List.cons_ne_nil _ _)).exits := by
  cases rest with
  | nil => rw [exits]; rfl
  | cons second rest => rw [exits, exitsOfLast_eq_getLast _ (List.cons_ne_nil _ _)]; rfl

/-! ## The links inside a chart -/

mutual

/-- The links of a chart that is entered from the `incoming` points: those that reach it from
    there, and those that run inside it. -/
def links (incoming : List (Point α)) : Chart α → List (Link α)
  | task t => incoming.map fun source => ⟨source, t.entry⟩
  | group .parallel _ first rest => first.links incoming ++ linksBeside incoming rest
  | group .sequential _ first rest => first.links incoming ++ linksAfter first.exits rest

/-- The links of charts that are all entered from the same points. -/
def linksBeside (incoming : List (Point α)) : List (Chart α) → List (Link α)
  | [] => []
  | c :: cs => c.links incoming ++ linksBeside incoming cs

/-- The links of charts each of which is entered from the exits of the one before it, and the
    first of them from `incoming`. -/
def linksAfter (incoming : List (Point α)) : List (Chart α) → List (Link α)
  | [] => []
  | c :: cs => c.links incoming ++ linksAfter c.exits cs

end

theorem linksBeside_eq_flatMap (incoming : List (Point α)) (cs : List (Chart α)) :
    linksBeside incoming cs = cs.flatMap (links incoming) := by
  induction cs with
  | nil => rfl
  | cons c cs ih => rw [linksBeside, ih, List.flatMap_cons]

/-- The links of a chart that nothing runs before. -/
def innerLinks (c : Chart α) : List (Link α) := c.links []

end SpanChart.Chart
