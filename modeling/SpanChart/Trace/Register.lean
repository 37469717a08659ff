/-
  REGISTER — the spans of a trace by id, and the defects that show span by span.

  Entering a trace goes through it twice.  First every span is entered in order, and the first one
  that is refused stops that: its id is reserved, or it ends before it starts, or its id is taken.
  Only when all are in are the parents looked at, again in order, because a parent may come after
  its children.  So a refusal hides everything that is wrong with parents, and otherwise the
  earliest span decides what is reported.

  What was entered before a defect stays entered: the register comes back either way.
-/
import SpanChart.Scalar
import SpanChart.Trace.Defect
import Std.Data.TreeMap

namespace SpanChart

/-- Spans by id. -/
abbrev Register (α : Type) := Std.TreeMap SpanId (Span α)

namespace Register

variable {α : Type}

/-- The spans of a trace as they are, unchecked.  Of several with one id the first is registered. -/
def ofTrace (trace : Trace α) : Register α :=
  trace.foldl (fun register s => register.insertIfNew s.id s) ∅

/-! ## Entering -/

/-- What keeps a span from being entered into a register, if anything does. -/
def refusal? [Scalar α] (register : Register α) (s : Span α) : Option (Defect α) :=
  if s.id = noParent then some .reservedId
  else if s.finish < s.start then some (.reversed s.id s.start s.finish)
  else if register.contains s.id then some (.duplicate s.id)
  else none

/-- Enters spans up to the first that is refused.  What was entered comes back together with the
    refusal. -/
def enter [Scalar α] (register : Register α) : Trace α → Register α × Option (Defect α)
  | [] => (register, none)
  | s :: trace =>
    match register.refusal? s with
    | some defect => (register, some defect)
    | none => enter (register.insert s.id s) trace

/-! ## Parents -/

/-- What is wrong with the parent that a span gives, if anything is. -/
def parentDefect? (register : Register α) (s : Span α) : Option (Defect α) :=
  if s.parent = noParent then none
  else if s.parent = s.id then some (.ownParent s.id)
  else if register.contains s.parent then none
  else some (.unknownParent s.id s.parent)

/-- Registers a trace and finds its first defect, if it has any. -/
def check [Scalar α] (trace : Trace α) : Register α × Option (Defect α) :=
  match enter ∅ trace with
  | (register, some defect) => (register, some defect)
  | (register, none) => (register, trace.findSome? register.parentDefect?)

/-- The register of a trace in which no span is defective, or the first defect. -/
def ofTrace? [Scalar α] (trace : Trace α) : Except (Defect α) (Register α) :=
  match check trace with
  | (_, some defect) => .error defect
  | (register, none) => .ok register

end Register

end SpanChart
