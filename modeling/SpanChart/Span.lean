/-
  SPAN — one recorded interval of a fork-join program, and the trace that lists them.

  A trace is flat: every span names its parent by id, in whatever order the recorder wrote them
  down, and the tree is read back from those names.  Id `0` stands for "no parent" and is nobody's
  id.  Times are scalars of any kind, so that the same trace can be laid out exactly or in binary64.
-/
namespace SpanChart

/-- What a span is called: a machine word, `0` excepted. -/
abbrev SpanId := UInt64

/-- The name that a span without parent gives as its parent. -/
def noParent : SpanId := 0

/-- One interval in which one thread executed one piece of the program. -/
structure Span (α : Type) where
  /-- What other spans call this one. -/
  id : SpanId
  /-- The span that this one was executed for, or `noParent`. -/
  parent : SpanId
  /-- When the interval begins. -/
  start : α
  /-- When the interval ends. -/
  finish : α
  /-- The worker that executed it. -/
  thread : UInt64
  /-- What the recorder marked the span with. -/
  tag : String
  deriving Repr, DecidableEq

namespace Span

/-- The mark of a fork-join point.  It counts only when written exactly so. -/
def joinTag : String := "join"

/-- Whether the children of this span ran side by side.  Those of any other span ran one after
    another. -/
def isJoin {α : Type} (s : Span α) : Bool := s.tag == joinTag

/-- Whether this span has nobody above it. -/
def isRoot {α : Type} (s : Span α) : Bool := s.parent == noParent

end Span

/-- The spans of one run, in the order in which they were written down. -/
abbrev Trace (α : Type) := List (Span α)

end SpanChart
