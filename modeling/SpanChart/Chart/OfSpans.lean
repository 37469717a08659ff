/-
  CHARTS OF SPANS — how a tree of spans becomes a composition of tasks.

  * A span without children is a task, its own.
  * A join is the parallel group of its children's charts.  What it did besides is not shown.
  * Any other span is the sequence of its children's charts with idle time around each: from its
    own start to the first child's, from the end of each child to the start of the next, and from
    the end of the last child to its own.  Where children overlap or leave their parent's interval
    that time would be negative; it is empty then, so `n` children always have `n + 1` idle tasks
    around them.

  The lineage is taken as it comes.  A span that is not registered is a fault, and so is one that
  lies somewhere below itself.  Without such a circle no line of descent has two spans of one id,
  and all its spans but the last are parents, so it has at most one span more than there are
  parents: that many levels are enough.
-/
import SpanChart.Chart.Basic
import SpanChart.Trace.Register
import SpanChart.Trace.Lineage

namespace SpanChart.Chart

variable {α : Type} [Scalar α]

/-- The parts of a sequence from the time `since` on: idle time and the chart of a child by turns,
    and idle time up to `finish` at the end.  `chart` charts a child. -/
def interleave (register : Register α) (thread : UInt64) (finish : α)
    (chart : SpanId → Except Fault (Chart α)) (since : α) :
    List SpanId → Except Fault (List (Chart α))
  | [] => do
    let idle ← Task.of? since (Scalar.larger since finish) thread true
    return [task idle]
  | id :: ids => do
    let some child := register[id]? | .error (.missingPart id)
    let idle ← Task.of? since (Scalar.larger since child.start) thread true
    let part ← chart child.id
    let parts ← interleave register thread finish chart child.finish ids
    return task idle :: part :: parts

/-- The chart of a span whose lines of descent are at most `levels` long. -/
def ofSpanWithin (register : Register α) (children : Children) :
    Nat → SpanId → Except Fault (Chart α)
  | 0, _ => .error .cycle
  | levels + 1, id => do
    let some span := register[id]? | .error (.missingSpan id)
    match children.of id with
    | [] => task <$> Task.of? span.start span.finish span.thread false
    | ids =>
      if span.isJoin then
        group? .parallel (← ids.mapM (ofSpanWithin register children levels))
      else
        group? .sequential
          (← interleave register span.thread span.finish (ofSpanWithin register children levels)
            span.start ids)

/-! ### The cases

  What a chart comes to depends on whether the span is registered, whether it has children, and
  whether it is a join of them.
-/

section Cases

variable {register : Register α} {children : Children} {levels : Nat} {id : SpanId} {span : Span α}

theorem ofSpanWithin_of_none (hspan : register[id]? = none) :
    ofSpanWithin register children (levels + 1) id = .error (.missingSpan id) := by
  rw [ofSpanWithin, hspan]

theorem ofSpanWithin_of_alone (hspan : register[id]? = some span) (hof : children.of id = []) :
    ofSpanWithin register children (levels + 1) id =
      task <$> Task.of? span.start span.finish span.thread false := by
  rw [ofSpanWithin, hspan, hof]

theorem ofSpanWithin_of_join (hspan : register[id]? = some span) (hof : children.of id ≠ [])
    (hjoin : span.isJoin = true) :
    ofSpanWithin register children (levels + 1) id =
      (children.of id).mapM (ofSpanWithin register children levels) >>= group? .parallel := by
  obtain ⟨c, ids, hids⟩ := List.exists_cons_of_ne_nil hof
  rw [ofSpanWithin, hspan, hids]
  dsimp only
  rw [if_pos hjoin]

theorem ofSpanWithin_of_turns (hspan : register[id]? = some span) (hof : children.of id ≠ [])
    (hturn : span.isJoin = false) :
    ofSpanWithin register children (levels + 1) id =
      interleave register span.thread span.finish (ofSpanWithin register children levels)
        span.start (children.of id) >>= group? .sequential := by
  obtain ⟨c, ids, hids⟩ := List.exists_cons_of_ne_nil hof
  rw [ofSpanWithin, hspan, hids]
  dsimp only
  rw [hturn, if_neg Bool.false_ne_true]

end Cases

/-- The chart of a span and all that descends from it. -/
def ofSpan (register : Register α) (children : Children) (id : SpanId) :
    Except Fault (Chart α) :=
  ofSpanWithin register children (children.size + 1) id

end SpanChart.Chart
