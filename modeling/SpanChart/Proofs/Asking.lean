/-
  ASKING — which spans are charted on the way to a chart, and how often.

  A chart does not say what it took to make it.  So charting is written down once more, with a list
  in which every span is noted as its chart is asked for (`askOfSpan`), and nothing else changed.
  An attempt `Records` a list next to another attempt if it comes to the same, and has noted just
  that list when it succeeds.  This composes along `>>=` and over lists like the attempts do, so the
  list of a chart is read off its construction: the span itself, and then what its children take, in
  order.  That is the descent of the span (`records_ofSpanWithin`), one entry for each line.

  It takes no tree for that.  A span on several lines is charted several times.
-/
import SpanChart.Proofs.Descent
import SpanChart.Chart.OfSpans

namespace SpanChart.Chart

open Scalar (larger)

/-! ## Attempts that keep a list -/

/-- An attempt that keeps a list of the spans it is asked to chart. -/
abbrev Asking (β : Type) := StateT (List SpanId) (Except Fault) β

section Records

variable {β γ : Type}

/-- The attempt comes to the same as the other one, and if that is an outcome, the list is longer
    by `asked`. -/
def Records (x : Asking β) (asked : List SpanId) (attempt : Except Fault β) : Prop :=
  ∀ before, x.run before = (fun b => (b, before ++ asked)) <$> attempt

/-- Nothing is said of the list where there is no outcome. -/
theorem records_throw (asked : List SpanId) (fault : Fault) :
    Records (throw fault : Asking β) asked (.error fault) :=
  fun _ => rfl

/-- What is not a chart of a span does not show in the list. -/
theorem records_lift (attempt : Except Fault β) : Records (liftM attempt) [] attempt := by
  intro before
  rw [List.append_nil]
  cases attempt <;> rfl

/-- What is asked for later comes later in the list. -/
theorem Records.bind {x : Asking β} {next : β → Asking γ} {asked more : List SpanId}
    {attempt : Except Fault β} {go : β → Except Fault γ} (h : Records x asked attempt)
    (hnext : ∀ b, Records (next b) more (go b)) :
    Records (x >>= next) (asked ++ more) (attempt >>= go) := by
  intro before
  rw [StateT.run_bind, h before]
  cases attempt with
  | error fault => rfl
  | ok b =>
    rw [← List.append_assoc]
    exact hnext b _

/-- Afterwards nobody is asked any more. -/
theorem Records.bind_last {x : Asking β} {next : β → Asking γ} {asked : List SpanId}
    {attempt : Except Fault β} {go : β → Except Fault γ} (h : Records x asked attempt)
    (hnext : ∀ b, Records (next b) [] (go b)) :
    Records (x >>= next) asked (attempt >>= go) := by
  rw [← List.append_nil asked]
  exact h.bind hnext

/-- A chart of one span more is asked for. -/
theorem Records.cons {x : Asking β} {asked : List SpanId} {attempt : Except Fault β}
    (h : Records x asked attempt) (id : SpanId) :
    Records (modify (· ++ [id]) >>= fun _ => x) (id :: asked) attempt := by
  intro before
  show x.run (before ++ [id]) = _
  rw [h, List.append_assoc]
  rfl

theorem records_mapM {f : SpanId → Asking β} {asked : SpanId → List SpanId}
    {chart : SpanId → Except Fault β} {ids : List SpanId}
    (h : ∀ c, Records (f c) (asked c) (chart c)) :
    Records (ids.mapM f) (ids.flatMap asked) (ids.mapM chart) := by
  induction ids with
  | nil => exact records_lift (.ok [])
  | cons c ids ih =>
    rw [List.mapM_cons, List.mapM_cons, List.flatMap_cons]
    exact (h c).bind fun b => ih.bind_last fun bs => records_lift (.ok (b :: bs))

end Records

variable {α : Type} [Scalar α]

/-- `interleave`, with attempts that keep a list. -/
def askInterleave (register : Register α) (thread : UInt64) (finish : α)
    (chart : SpanId → Asking (Chart α)) (since : α) : List SpanId → Asking (List (Chart α))
  | [] => do
    let idle ← Task.of? since (larger since finish) thread true
    return [task idle]
  | id :: ids => do
    let some child := register[id]? | throw (.missingPart id)
    let idle ← Task.of? since (larger since child.start) thread true
    let part ← chart child.id
    let parts ← askInterleave register thread finish chart child.finish ids
    return task idle :: part :: parts

/-- `ofSpanWithin`, with a list of all the spans that it is called for. -/
def askOfSpanWithin (register : Register α) (children : Children) :
    Nat → SpanId → Asking (Chart α)
  | 0, _ => throw .cycle
  | levels + 1, id => do
    modify (· ++ [id])
    let some span := register[id]? | throw (.missingSpan id)
    match children.of id with
    | [] => task <$> Task.of? span.start span.finish span.thread false
    | ids =>
      if span.isJoin then
        group? .parallel (← ids.mapM (askOfSpanWithin register children levels))
      else
        group? .sequential
          (← askInterleave register span.thread span.finish
            (askOfSpanWithin register children levels) span.start ids)

/-- `ofSpan`, with a list of all the spans that it is called for. -/
def askOfSpan (register : Register α) (children : Children) (id : SpanId) : Asking (Chart α) :=
  askOfSpanWithin register children (children.size + 1) id

variable {register : Register α} {children : Children}

/-- What is idle is nobody's chart. -/
theorem records_interleave {thread : UInt64} {finish since : α} {f : SpanId → Asking (Chart α)}
    {asked : SpanId → List SpanId} {chart : SpanId → Except Fault (Chart α)} {ids : List SpanId}
    (hown : ∀ {id : SpanId} {s : Span α}, register[id]? = some s → s.id = id)
    (h : ∀ c, Records (f c) (asked c) (chart c)) :
    Records (askInterleave register thread finish f since ids) (ids.flatMap asked)
      (interleave register thread finish chart since ids) := by
  induction ids generalizing since with
  | nil =>
    rw [askInterleave, interleave]
    exact (records_lift _).bind fun idle => records_lift (.ok [task idle])
  | cons c ids ih =>
    rw [askInterleave, interleave, List.flatMap_cons]
    cases hchild : register[c]? with
    | none => exact records_throw _ _
    | some child =>
      obtain rfl := hown hchild
      exact (records_lift _).bind fun idle => (h child.id).bind fun part =>
        ih.bind_last fun parts => records_lift (.ok (task idle :: part :: parts))

/-- **Charting a span** asks for its descent: for the span at the end of each line, depth first. -/
theorem records_ofSpanWithin
    (hown : ∀ {id : SpanId} {s : Span α}, register[id]? = some s → s.id = id) (levels : Nat)
    (id : SpanId) :
    Records (askOfSpanWithin register children levels id) (children.descent levels id)
      (ofSpanWithin register children levels id) := by
  induction levels generalizing id with
  | zero => exact records_throw _ _
  | succ levels ih =>
    rw [askOfSpanWithin, ofSpanWithin, Children.descent]
    refine Records.cons ?_ id
    cases hspan : register[id]? with
    | none => exact records_throw _ _
    | some span =>
      cases hof : children.of id with
      | nil =>
        show Records (task <$> liftM _) [] (task <$> _)
        rw [map_eq_pure_bind, map_eq_pure_bind]
        exact (records_lift _).bind_last fun t => records_lift (.ok (task t))
      | cons c ids =>
        dsimp only
        -- a group is made of what was asked for, and making it asks for nothing
        cases span.isJoin with
        | true => exact (records_mapM ih).bind_last fun parts => records_lift _
        | false => exact (records_interleave hown ih).bind_last fun parts => records_lift _

/-- The list comes back beside the chart. -/
theorem askOfSpan_run
    (hown : ∀ {id : SpanId} {s : Span α}, register[id]? = some s → s.id = id) (id : SpanId) :
    (askOfSpan register children id).run [] =
      (fun chart => (chart, children.descent (children.size + 1) id)) <$>
        ofSpan register children id :=
  records_ofSpanWithin hown (children.size + 1) id []

end SpanChart.Chart
