/-
  LINEAGE — the tree that the parents given in a trace make up.

  Spans are grouped under the parent they give, each group in trace order; those without a parent
  are the roots.  The grouping asks nothing of the trace: ids may repeat, parents may be unknown
  and lines of descent may run in circles.  Whether a lineage is a tree below its root is found out
  by walking it, which is what `survey` does.  That the grouping loses and moves nobody is
  `Children.of_ofTrace`.

  The walk counts lines of descent rather than spans.  In a trace where every span has one parent
  there is exactly one line to each span that can be reached at all, so the two counts agree; what
  is missing from the count is what goes round in a circle instead of descending from the root.  A
  line may be `nestingLimit` spans long, which also bounds the walk where lines go on for ever.
-/
import SpanChart.Trace.Defect
import Std.Data.TreeMap

namespace SpanChart

/-- The children of each parent, in trace order. -/
abbrev Children := Std.TreeMap SpanId (List SpanId)

/-- Who descends from whom. -/
structure Lineage where
  children : Children
  /-- The spans that give no parent, in trace order. -/
  roots : List SpanId

namespace Children

/-- The children of a span.  A span that is nobody's parent has none. -/
def of (children : Children) (id : SpanId) : List SpanId := children.getD id []

theorem mem_insert {children : Children} {p q : SpanId} {ids : List SpanId} :
    q ∈ children.insert p ids ↔ p = q ∨ q ∈ children := by
  rw [Std.TreeMap.mem_insert, Std.LawfulEqCmp.compare_eq_iff_eq]

theorem of_insert (children : Children) (p q : SpanId) (ids : List SpanId) :
    of (children.insert p ids) q = if p = q then ids else children.of q := by
  simp only [of, Std.TreeMap.getD_insert, Std.LawfulEqCmp.compare_eq_iff_eq]

/-- Puts a span before all the children that its parent has so far. -/
def addFirst {α : Type} (s : Span α) (children : Children) : Children :=
  children.insert s.parent (s.id :: children.of s.parent)

theorem of_addFirst {α : Type} (s : Span α) (children : Children) (parent : SpanId) :
    (addFirst s children).of parent =
      if s.parent = parent then s.id :: children.of parent else children.of parent := by
  rw [addFirst, of_insert]
  split
  case isTrue h => rw [h]
  case isFalse => rfl

/-- The children of every parent that a trace names. -/
def ofTrace {α : Type} (trace : Trace α) : Children :=
  (trace.filter fun s => !s.isRoot).foldr addFirst ∅

/-- The children of a span are those that give it as their parent, in trace order.  Giving
    `noParent` is giving none. -/
theorem of_ofTrace {α : Type} (trace : Trace α) (parent : SpanId) :
    (ofTrace trace).of parent =
      (trace.filter fun s => !s.isRoot && s.parent == parent).map Span.id := by
  unfold ofTrace
  induction trace with
  | nil => rfl
  | cons s trace ih =>
    cases root : s.isRoot with
    | true => simp [root, ih]
    | false => by_cases h : s.parent = parent <;> simp [root, h, of_addFirst, ih]

end Children

namespace Lineage

/-- Groups the spans of a trace. -/
def ofTrace {α : Type} (trace : Trace α) : Lineage where
  children := Children.ofTrace trace
  roots := (trace.filter Span.isRoot).map Span.id

/-- The one root that a tree has. -/
def root? {α : Type} : List SpanId → Except (Defect α) SpanId
  | [root] => .ok root
  | roots => .error (.rootCount roots.length)

theorem root?_eq_ok_iff {α : Type} {roots : List SpanId} {root : SpanId} :
    root? (α := α) roots = .ok root ↔ roots = [root] := by
  match roots with
  | [] => simp [root?]
  | [r] => simp [root?]
  | _ :: _ :: _ => simp [root?]

end Lineage

/-! ## Walking down -/

namespace Children

/-- The number of lines of descent from `id`, itself the shortest of them, if none of them is
    longer than `limit`; otherwise the span that goes beyond the limit.  Later children come
    first, so it is the latest of several such spans that is found. -/
def lines (children : Children) : Nat → SpanId → Except SpanId Nat
  | 0, id => .error id
  | limit + 1, id =>
    (children.of id).reverse.foldlM (fun count child => (count + ·) <$> lines children limit child) 1

/-- What is wrong with the tree below `root`, if anything is, where `count` spans should be in it:
    a line of descent is too long, or not as many spans are reached. -/
def survey {α : Type} (children : Children) (root : SpanId) (count : UInt64) :
    Option (Defect α) :=
  match children.lines nestingLimit root with
  | .error id => some (.tooDeep id (nestingLimit + 1))
  | .ok reached =>
    if UInt64.ofNat reached = count then none
    else some (.unreachable (count - UInt64.ofNat reached) root)

end Children

end SpanChart
