/-
  FAMILIES — the tree that a trace is a list of.

  A trace is flat, and its chart is made by looking spans up under the ids that others give.  A
  `Family` is what the ids stand for: a span with the families of its children, in trace order.

  1. `exists_family` — a trace that passes the checks lists one family, that of its root.  Going
     through it depth first meets every span of the trace, and meets it once.

  2. `ofSpan_eq_chart?` — the chart of the trace is the chart of its family, and that one is made by
     recursion on the family (`chart?`), with no ids, no registers and no levels to count.

  What can be said of all charts of traces is from here on an induction over families.
-/
import SpanChart.Proofs.Outcomes

namespace SpanChart

variable {α : Type}

/-- The spans that give a span as their parent, in trace order. -/
def Trace.childrenOf (trace : Trace α) (s : Span α) : List (Span α) :=
  trace.filter fun t => t.parent == s.id

/-- A span with the families of its children. -/
inductive Family (α : Type) where
  | node (head : Span α) (branches : List (Family α))

namespace Family

/-! ## Families and their spans -/

/-- The span that a family is the family of. -/
def head : Family α → Span α
  | node s _ => s

mutual

/-- Induction over families, from the branches to the whole. -/
@[elab_as_elim, induction_eliminator]
theorem induct {motive : Family α → Prop}
    (ofNode : ∀ s fs, (∀ f ∈ fs, motive f) → motive (node s fs)) : ∀ f : Family α, motive f
  | node s fs => ofNode s fs (induct_mem ofNode fs)

/-- What induction gives for every one of several families. -/
theorem induct_mem {motive : Family α → Prop}
    (ofNode : ∀ s fs, (∀ f ∈ fs, motive f) → motive (node s fs)) :
    ∀ fs : List (Family α), ∀ f ∈ fs, motive f
  | [], _, h => absurd h List.not_mem_nil
  | g :: gs, f, h => by
    rcases List.mem_cons.1 h with h | h
    · exact h ▸ induct ofNode g
    · exact induct_mem ofNode gs f h

end

mutual

/-- The spans of a family, depth first: a span before its descendants, and these branch by
    branch. -/
def spans : Family α → List (Span α)
  | node s fs => s :: spansOf fs

/-- The spans of several families, one family after the other. -/
def spansOf : List (Family α) → List (Span α)
  | [] => []
  | f :: fs => f.spans ++ spansOf fs

end

theorem spansOf_eq_flatMap (fs : List (Family α)) : spansOf fs = fs.flatMap spans := by
  induction fs with
  | nil => rfl
  | cons f fs ih => rw [spansOf, ih, List.flatMap_cons]

theorem spans_node (s : Span α) (fs : List (Family α)) :
    (node s fs).spans = s :: fs.flatMap spans := by
  rw [spans, spansOf_eq_flatMap]

theorem head_mem_spans (f : Family α) : f.head ∈ f.spans := by
  cases f with
  | node s fs => exact List.mem_cons_self

/-! ## The families that a trace lists -/

/-- The family is what a trace lists below its head: the children of each span are all those that
    give it as their parent, in trace order. -/
inductive ListedIn (trace : Trace α) : Family α → Prop
  | node {s : Span α} {fs : List (Family α)} (hs : s ∈ trace)
      (children : fs.map head = trace.childrenOf s) (branches : ∀ f ∈ fs, ListedIn trace f) :
      ListedIn trace (node s fs)

/-- In a lineage a span has the children that the trace lists, by id. -/
theorem of_eq_map_childrenOf {trace : Trace α} {s : Span α} (named : s.id ≠ noParent) :
    (Children.ofTrace trace).of s.id = (trace.childrenOf s).map Span.id := by
  rw [Children.of_ofTrace, Trace.childrenOf]
  congr 1
  refine List.filter_congr fun t _ => ?_
  -- who gives a span as parent gives some parent
  by_cases hparent : t.parent = s.id
  · have hroot : t.isRoot = false := by
      rw [← Bool.not_eq_true, isRoot_iff, hparent]
      exact named
    simp [hroot]
  · simp [hparent]

/-- Where lines of descent end, the trace lists a family, and depth first it is the descent. -/
theorem exists_listedIn {trace : Trace α} (named : ∀ s ∈ trace, s.id ≠ noParent) {levels : Nat}
    {s : Span α} (hs : s ∈ trace)
    (hend : (Children.ofTrace trace).generation levels s.id = []) :
    ∃ f : Family α, f.ListedIn trace ∧ f.head = s ∧
      f.spans.map Span.id = (Children.ofTrace trace).descent levels s.id := by
  induction levels generalizing s with
  | zero => exact absurd hend (List.cons_ne_nil _ _)
  | succ levels ih =>
    have hchildren : (Children.ofTrace trace).of s.id = (trace.childrenOf s).map Span.id :=
      of_eq_map_childrenOf (named s hs)
    have hbranch : ∀ t ∈ trace.childrenOf s, ∃ f : Family α, f.ListedIn trace ∧ f.head = t ∧
        f.spans.map Span.id = (Children.ofTrace trace).descent levels t.id := by
      intro t ht
      have hid : t.id ∈ (Children.ofTrace trace).of s.id := by
        rw [hchildren]
        exact List.mem_map_of_mem ht
      exact ih (List.mem_filter.1 ht).1 (Children.generation_succ_eq_nil_iff.1 hend t.id hid)
    have : Inhabited (Family α) := ⟨node s []⟩
    -- a family for each child, put together below `s`
    choose! branch hbranch using hbranch
    refine ⟨node s ((trace.childrenOf s).map branch), .node hs ?_ ?_, rfl, ?_⟩
    · rw [List.map_map]
      exact (List.map_congr_left fun t ht => (hbranch t ht).2.1).trans (List.map_id _)
    · intro f hf
      obtain ⟨t, ht, rfl⟩ := List.mem_map.1 hf
      exact (hbranch t ht).1
    · rw [spans_node, List.map_cons, Children.descent, hchildren, List.flatMap_map,
        List.map_flatMap, List.flatMap_map]
      exact congrArg _ (List.flatMap_congr fun t ht => (hbranch t ht).2.2)

/-- All spans of a listed family are in the trace. -/
theorem ListedIn.spans_subset {trace : Trace α} {f : Family α} (hf : f.ListedIn trace) :
    ∀ s ∈ f.spans, s ∈ trace := by
  induction f with
  | ofNode s fs ih =>
    cases hf with
    | node hs _ hbranches =>
      intro t ht
      rw [spans_node] at ht
      rcases List.mem_cons.1 ht with rfl | ht
      · exact hs
      · obtain ⟨f, hf, ht⟩ := List.mem_flatMap.1 ht
        exact ih f hf (hbranches f hf) t ht

variable [Scalar α]

/-- **A trace that passes lists a family**, and the spans of this are its spans. -/
theorem exists_family {trace : Trace α} {checked : Layout.Checked α}
    (h : checked.Describes trace) :
    ∃ f : Family α, f.ListedIn trace ∧ f.head.parent = noParent ∧ f.spans.Perm trace := by
  obtain ⟨r, hroots, hroot⟩ := h.root
  obtain ⟨hr, hparent⟩ := mem_of_filter_eq hroots
  have distinct := h.registrable.distinct
  have hends := h.ends
  rw [h.children_eq, ← hroot] at hends
  obtain ⟨f, hlisted, rfl, hdescent⟩ := exists_listedIn h.registrable.named hr hends
  -- the descent has no repetitions, and is as long as the trace
  have hsub := subperm_descent distinct hroots nestingLimit
  have hlength := (length_descent_eq_iff distinct hroots).2 h.climbs
  have hperm := hsub.perm_of_length_le (by rw [hlength, List.length_map])
  rw [← hdescent] at hperm
  have hnodup : f.spans.Nodup := (hperm.nodup_iff.2 distinct).of_map _
  have hspans := List.subperm_of_subset hnodup hlisted.spans_subset
  refine ⟨f, hlisted, hparent, hspans.perm_of_length_le ?_⟩
  have hlength := hperm.length_eq
  rw [List.length_map, List.length_map] at hlength
  exact hlength.ge

/-! ## The chart of a family -/

open Scalar (larger)

mutual

/-- The chart of a family. -/
def chart? : Family α → Except Fault (Chart α)
  | node s [] => Chart.task <$> Task.of? s.start s.finish s.thread false
  | node s (f :: fs) =>
    if s.isJoin then do
      Chart.group? .parallel (← charts? (f :: fs))
    else do
      Chart.group? .sequential (← turns? s.thread s.finish s.start (f :: fs))

/-- The charts of several families. -/
def charts? : List (Family α) → Except Fault (List (Chart α))
  | [] => return []
  | f :: fs => do
    let part ← f.chart?
    let parts ← charts? fs
    return part :: parts

/-- The charts of several families that took turns from the time `since` on, with idle time around
    each. -/
def turns? (thread : UInt64) (finish since : α) : List (Family α) → Except Fault (List (Chart α))
  | [] => do
    let idle ← Task.of? since (larger since finish) thread true
    return [.task idle]
  | f :: fs => do
    let idle ← Task.of? since (larger since f.head.start) thread true
    let part ← f.chart?
    let parts ← turns? thread finish f.head.finish fs
    return .task idle :: part :: parts

end

/-- The chart of a family that has branches. -/
theorem chart?_of_ne_nil (s : Span α) {fs : List (Family α)} (h : fs ≠ []) :
    (node s fs).chart? =
      if s.isJoin then charts? fs >>= Chart.group? .parallel
      else turns? s.thread s.finish s.start fs >>= Chart.group? .sequential := by
  obtain ⟨f, fs, rfl⟩ := List.exists_cons_of_ne_nil h
  rw [chart?]

section Map

variable {g : Family α → Family α} {fs : List (Family α)}
  (hchart : ∀ f ∈ fs, (g f).chart? = f.chart?)

include hchart

/-- Families that have the same charts one by one have the same charts together. -/
theorem charts?_map : charts? (fs.map g) = charts? fs := by
  induction fs with
  | nil => rfl
  | cons f fs ih =>
    rw [List.map_cons, charts?, charts?, hchart f List.mem_cons_self,
      ih fun e he => hchart e (List.mem_cons_of_mem f he)]

/-- When they took turns, they had to begin and end at the same times as well. -/
theorem turns?_map {thread : UInt64} {finish since : α}
    (htimes : ∀ f ∈ fs, (g f).head.start = f.head.start ∧ (g f).head.finish = f.head.finish) :
    turns? thread finish since (fs.map g) = turns? thread finish since fs := by
  induction fs generalizing since with
  | nil => rfl
  | cons f fs ih =>
    have hrest : ∀ since', turns? thread finish since' (fs.map g) =
        turns? thread finish since' fs :=
      fun since' => ih (fun e he => hchart e (List.mem_cons_of_mem f he))
        fun e he => htimes e (List.mem_cons_of_mem f he)
    obtain ⟨hstart, hfinish⟩ := htimes f List.mem_cons_self
    rw [List.map_cons, turns?, turns?, hstart, hfinish, hchart f List.mem_cons_self, hrest]

end Map

section OfSpan

variable {trace : Trace α} {checked : Layout.Checked α}

theorem mapM_eq_charts? {chart : SpanId → Except Fault (Chart α)} {fs : List (Family α)}
    (hchart : ∀ f ∈ fs, chart f.head.id = f.chart?) :
    (fs.map fun f => f.head.id).mapM chart = charts? fs := by
  induction fs with
  | nil => rfl
  | cons f fs ih =>
    rw [List.map_cons, List.mapM_cons, hchart f List.mem_cons_self,
      ih fun g hg => hchart g (List.mem_cons_of_mem f hg), charts?]

theorem interleave_eq_turns? {register : Register α} {chart : SpanId → Except Fault (Chart α)}
    {thread : UInt64} {finish since : α} {fs : List (Family α)}
    (hregister : ∀ f ∈ fs, register[f.head.id]? = some f.head)
    (hchart : ∀ f ∈ fs, chart f.head.id = f.chart?) :
    Chart.interleave register thread finish chart since (fs.map fun f => f.head.id) =
      turns? thread finish since fs := by
  induction fs generalizing since with
  | nil => rfl
  | cons f fs ih =>
    have hrest : ∀ since', Chart.interleave register thread finish chart since'
        (fs.map fun f => f.head.id) = turns? thread finish since' fs := fun since' =>
      ih (fun g hg => hregister g (List.mem_cons_of_mem f hg))
        fun g hg => hchart g (List.mem_cons_of_mem f hg)
    rw [List.map_cons, Chart.interleave, hregister f List.mem_cons_self, turns?]
    simp only [hchart f List.mem_cons_self, hrest]

/-- Looking spans up and counting levels makes no difference where a family is listed. -/
theorem ofSpanWithin_eq_chart? (h : checked.Describes trace) {levels : Nat} {f : Family α}
    (hf : f.ListedIn trace) (hend : checked.children.generation levels f.head.id = []) :
    Chart.ofSpanWithin checked.register checked.children levels f.head.id = f.chart? := by
  induction f generalizing levels with
  | ofNode s fs ih =>
    cases hf with
    | node hs hheads hbranches =>
      cases levels with
      | zero => exact absurd hend (List.cons_ne_nil _ _)
      | succ levels =>
        -- the ids that are looked up are those of the branches, and each leads to the head of one
        have hof : checked.children.of s.id = fs.map fun f => f.head.id := by
          rw [h.children_eq, of_eq_map_childrenOf (h.registrable.named s hs), ← hheads,
            List.map_map]
          rfl
        have hregister : ∀ f ∈ fs, checked.register[f.head.id]? = some f.head :=
          fun f hf => h.getElem?_register ((hbranches f hf).spans_subset _ f.head_mem_spans)
        have hchart : ∀ f ∈ fs, Chart.ofSpanWithin checked.register checked.children levels
            f.head.id = f.chart? := by
          intro f hf
          have hid : f.head.id ∈ checked.children.of s.id := by
            rw [hof]
            exact List.mem_map_of_mem hf
          exact ih f hf (hbranches f hf) (Children.generation_succ_eq_nil_iff.1 hend _ hid)
        show Chart.ofSpanWithin checked.register checked.children (levels + 1) s.id = _
        simp only [Chart.ofSpanWithin, h.getElem?_register hs, hof]
        cases fs with
        | nil => rfl
        | cons f fs =>
          rw [chart?]
          simp only [List.map_cons]
          rw [← List.map_cons (f := fun f : Family α => f.head.id), mapM_eq_charts? hchart,
            interleave_eq_turns? hregister hchart]

/-- **The chart of a trace is that of its family.** -/
theorem ofSpan_eq_chart? (h : checked.Describes trace) {f : Family α} (hf : f.ListedIn trace)
    (hroot : f.head.id = checked.root) :
    Chart.ofSpan checked.register checked.children checked.root = f.chart? := by
  have hends := h.ends_levels
  rw [← hroot] at hends ⊢
  exact ofSpanWithin_eq_chart? h hf hends

end OfSpan

end Family

end SpanChart
