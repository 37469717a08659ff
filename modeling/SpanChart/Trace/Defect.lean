/-
  DEFECT — why a trace cannot be charted.

  Every defect is a cause, with what is needed to point at it; the wording is in one place,
  `Defect.message`.  The first three are found span by span, the next two once all the spans are
  known, and the last three in the tree that the spans make up.
-/
import SpanChart.Span
import SpanChart.Numeral.General

namespace SpanChart

open Numeral (general readable)

/-- What is wrong with a trace. -/
inductive Defect (α : Type) where
  /-- A span has the id that means "no parent". -/
  | reservedId
  /-- A span ends before it starts. -/
  | reversed (id : SpanId) (start finish : α)
  /-- Two spans have the same id. -/
  | duplicate (id : SpanId)
  /-- A span gives itself as its parent. -/
  | ownParent (id : SpanId)
  /-- A span gives a parent that is not in the trace. -/
  | unknownParent (id parent : SpanId)
  /-- There is no root, or more than one. -/
  | rootCount (count : Nat)
  /-- A span has too many spans above it. -/
  | tooDeep (id : SpanId) (depth : Nat)
  /-- Some spans are not below the root.  The count is a machine word: it wraps where more spans
      are reached than there should be. -/
  | unreachable (count : UInt64) (root : SpanId)
  deriving Repr, DecidableEq

/-- How many spans deep a trace may be nested, the root counted. -/
def nestingLimit : Nat := 4096

/-- What is reported of a defect: one line that says where it is. -/
def Defect.message : Defect Float → String
  | .reservedId => "Error: span id 0 is reserved for \"no parent\"\n"
  | .reversed id start finish =>
    "Error: span " ++ toString id ++ " ends (" ++ general readable finish ++
      ") before it starts (" ++ general readable start ++ ")\n"
  | .duplicate id => "Error: duplicate span id " ++ toString id ++ "\n"
  | .ownParent id => "Error: span " ++ toString id ++ " is its own parent\n"
  | .unknownParent id parent =>
    "Error: span " ++ toString id ++ " references unknown parent " ++ toString parent ++ "\n"
  | .rootCount count =>
    "Error: expected exactly one root span, found " ++ toString count ++ "\n"
  | .tooDeep id depth =>
    "Error: span " ++ toString id ++ " is nested " ++ toString depth ++ " levels deep (limit " ++
      toString nestingLimit ++ ")\n"
  | .unreachable count root =>
    "Error: " ++ toString count ++ " span(s) are not descendants of root " ++ toString root ++
      " (parent cycle)\n"

end SpanChart
