/-
  PORTRAYAL — every block of a chart that is not idle stands for one span of the trace.

  A chart is named by paths, a trace by ids, and the builder goes from the one to the other through
  two maps.  `chart_portrays_trace` says that nothing is lost, doubled or moved on the way: there is
  one path to each span's block, the blocks that are not idle are those of spans, and the block of a
  child hangs right below that of its parent, at a place that depends only on which child it is and
  on whether the parent is a join.

  Both sides are compared through the family that the trace lists.  `ShownAt` goes down a family by
  the steps that lead down its chart, so it has the blocks on one side (`at?_of_shownAt`,
  `shownAt_of_at?`) and the spans on the other (`exists_shownAt`, `ShownAt.path_unique`).

  The counts are one induction, `count_of_drawn`: whatever is one for idle time, so much for every
  other block, and adds up over parts, is determined by the family.
-/
import SpanChart.Proofs.Precedence
import SpanChart.Proofs.Drawn

namespace SpanChart

variable {α : Type}

/-- How many idle tasks a span has around its children: one more than children, if it has any and
    they took turns. -/
def Trace.idleAround (trace : Trace α) (s : Span α) : Nat :=
  if s.isJoin || (trace.childrenOf s).isEmpty then 0 else (trace.childrenOf s).length + 1

namespace Family

/-! ## Families in which no span is repeated -/

section Nodup

variable {s : Span α} {fs : List (Family α)} {i j : Nat} {f g : Family α}

theorem nodup_branch (h : (node s fs).spans.Nodup) (hf : fs[i]? = some f) : f.spans.Nodup := by
  rw [spans_node, List.nodup_cons, List.nodup_flatMap] at h
  exact h.2.1 f (List.mem_of_getElem? hf)

/-- The head of a family is in none of its branches. -/
theorem head_notMem_of_nodup (h : (node s fs).spans.Nodup) (hf : fs[i]? = some f) :
    s ∉ f.spans := by
  rw [spans_node, List.nodup_cons] at h
  intro hs
  exact h.1 (List.mem_flatMap.2 ⟨f, List.mem_of_getElem? hf, hs⟩)

/-- A span is in one branch at most. -/
theorem position_unique_of_nodup (h : (node s fs).spans.Nodup) (hf : fs[i]? = some f)
    (hg : fs[j]? = some g) {t : Span α} (htf : t ∈ f.spans) (htg : t ∈ g.spans) : i = j := by
  rw [spans_node, List.nodup_cons, List.nodup_flatMap] at h
  obtain ⟨-, -, hapart⟩ := h
  obtain ⟨hi, rfl⟩ := List.getElem?_eq_some_iff.1 hf
  obtain ⟨hj, rfl⟩ := List.getElem?_eq_some_iff.1 hg
  by_contra hne
  rcases Nat.lt_or_gt_of_ne hne with hlt | hlt
  · exact List.pairwise_iff_getElem.1 hapart i j hi hj hlt htf htg
  · exact List.pairwise_iff_getElem.1 hapart j i hj hi hlt htg htf

end Nodup

/-! ## Going down a family as its chart does -/

/-- At the end of the path the chart of one family shows another, that of a descendant. -/
inductive ShownAt : Family α → List Nat → Family α → Prop
  | here (f : Family α) : ShownAt f [] f
  | further {s : Span α} {fs : List (Family α)} {i : Nat} {g h : Family α} {path : List Nat}
      (hg : fs[i]? = some g) (hh : ShownAt g path h) : ShownAt (node s fs) (s.seat i :: path) h

namespace ShownAt

variable {f g h : Family α} {path path' : List Nat}

/-- One step further down. -/
theorem snoc {s : Span α} {fs : List (Family α)} {i : Nat} (hf : ShownAt f path (node s fs))
    (hg : fs[i]? = some g) : ShownAt f (path ++ [s.seat i]) g := by
  generalize hnode : node s fs = d at hf
  induction hf with
  | here f =>
    subst hnode
    exact .further hg (.here g)
  | further hb hh ih => exact .further hb (ih hnode)

theorem listedIn {trace : Trace α} (hg : ShownAt f path g) (hf : f.ListedIn trace) :
    g.ListedIn trace := by
  induction hg with
  | here f => exact hf
  | further hb hh ih =>
    cases hf with
    | node hs hheads hbranches => exact ih (hbranches _ (List.mem_of_getElem? hb))

theorem head_mem (hg : ShownAt f path g) : g.head ∈ f.spans := by
  induction hg with
  | here f => exact f.head_mem_spans
  | further hb hh ih =>
    rw [spans_node]
    exact List.mem_cons_of_mem _ (List.mem_flatMap.2 ⟨_, List.mem_of_getElem? hb, ih⟩)

/-- A path shows one family. -/
theorem unique (hg : ShownAt f path g) (hh : ShownAt f path h) : g = h := by
  induction hg with
  | here f =>
    cases hh with
    | here => rfl
  | @further s fs i d e path hd he ih =>
    generalize hpath : s.seat i :: path = path' at hh
    cases hh with
    | here => exact absurd hpath (List.cons_ne_nil _ _)
    | @further _ _ j d' _ path'' hd' he' =>
      obtain ⟨hseat, rfl⟩ := List.cons.inj hpath
      obtain rfl := s.seat_injective hseat
      obtain rfl : d = d' := Option.some.inj (hd.symm.trans hd')
      exact ih he'

/-- Where no span is repeated, a span is shown at one path. -/
theorem path_unique (hnodup : f.spans.Nodup) (hg : ShownAt f path g) (hh : ShownAt f path' h)
    (hhead : g.head = h.head) : path = path' := by
  -- a head is not below itself, and what is below two branches is repeated
  induction hg generalizing path' with
  | here f =>
    cases hh with
    | here => rfl
    | @further s fs i d _ path hd hh =>
      have hmem : s ∈ d.spans := by
        have := hh.head_mem
        rwa [← hhead] at this
      exact absurd hmem (head_notMem_of_nodup hnodup hd)
  | @further s fs i d e path hd he ih =>
    cases hh with
    | here =>
      have hmem : s ∈ d.spans := by
        have := he.head_mem
        rwa [hhead] at this
      exact absurd hmem (head_notMem_of_nodup hnodup hd)
    | @further _ _ j d' _ path' hd' he' =>
      have hmem : e.head ∈ d.spans := he.head_mem
      have hmem' : e.head ∈ d'.spans := hhead ▸ he'.head_mem
      obtain rfl : i = j := position_unique_of_nodup hnodup hd hd' hmem hmem'
      obtain rfl : d = d' := Option.some.inj (hd.symm.trans hd')
      rw [ih (nodup_branch hnodup hd) he' hhead]

end ShownAt

/-- Every span of a family is shown somewhere. -/
theorem exists_shownAt {f : Family α} {s : Span α} (hs : s ∈ f.spans) :
    ∃ path g, f.ShownAt path g ∧ g.head = s := by
  induction f with
  | ofNode t fs ih =>
    rw [spans_node] at hs
    rcases List.mem_cons.1 hs with rfl | hs
    · exact ⟨[], _, .here _, rfl⟩
    · obtain ⟨d, hd, hs⟩ := List.mem_flatMap.1 hs
      obtain ⟨i, hi⟩ := List.getElem?_of_mem hd
      obtain ⟨path, g, hg, hhead⟩ := ih d hd hs
      exact ⟨t.seat i :: path, g, .further hi hg, hhead⟩

/-- The children that a trace lists for the head of a family are as many as there are branches. -/
theorem idleAround_node {trace : Trace α} {s : Span α} {fs : List (Family α)}
    (hheads : fs.map head = trace.childrenOf s) (hfs : fs ≠ []) :
    trace.idleAround s = if s.isJoin then 0 else fs.length + 1 := by
  have hempty : (trace.childrenOf s).isEmpty = false := by
    rw [← hheads]
    simp [hfs]
  rw [Trace.idleAround, hempty, Bool.or_false, ← hheads, List.length_map]

/-- What the spans of several families come to is what each family's come to, taken together. -/
theorem sum_map_flatMap_spans (w : Span α → Nat) (fs : List (Family α)) :
    ((fs.flatMap spans).map w).sum = (fs.map fun f => (f.spans.map w).sum).sum := by
  rw [List.map_flatMap, List.flatMap_def, List.sum_flatten, List.map_map]
  rfl

variable [Scalar α]

/-! ## Blocks and what they show -/

/-- Where a family is shown there is its chart. -/
theorem at?_of_shownAt {f g : Family α} {b : Chart α} {path : List Nat} (hb : f.Drawn b)
    (hg : f.ShownAt path g) : ∃ d, b.at? path = some d ∧ g.Drawn d := by
  induction hg generalizing b with
  | here f => exact ⟨b, rfl, hb⟩
  | further hd he ih =>
    obtain ⟨c, hc, hdrawn⟩ := part_of_branch hb hd
    obtain ⟨d, hd, hdrawn⟩ := ih hdrawn
    exact ⟨d, (Chart.at?_cons_of_part hc _).trans hd, hdrawn⟩

/-- Where there is a block that is not idle a family is shown. -/
theorem shownAt_of_at? {f : Family α} {b d : Chart α} {path : List Nat} (hb : f.Drawn b)
    (hbd : b.at? path = some d) (hidle : d.isIdle = false) :
    ∃ g, f.ShownAt path g ∧ g.Drawn d := by
  induction path generalizing f b with
  | nil =>
    obtain rfl := Option.some.inj hbd
    exact ⟨f, .here f, hb⟩
  | cons j path ih =>
    rw [Chart.at?_cons] at hbd
    obtain ⟨c, hc, hd⟩ := Option.bind_eq_some_iff.1 hbd
    cases f with
    | node s fs =>
      rcases branch_of_part hb hc with ⟨i, e, rfl, he, hdrawn⟩ | hcidle
      · obtain ⟨g, hg, hdrawn⟩ := ih hdrawn hd
        exact ⟨g, .further he hg, hdrawn⟩
      · -- idle time has nothing below it, and is not what was asked for
        obtain ⟨t, rfl, ht⟩ := Chart.isIdle_iff.1 hcidle
        cases path with
        | nil =>
          obtain rfl := Option.some.inj hd
          exact absurd (hidle.symm.trans ht) Bool.false_ne_true
        | cons k path => exact absurd hd (by simp [Chart.at?_cons, Chart.parts])

/-! ## Counting -/

/-- A sum over charts each of which counts one if it is idle. -/
theorem sum_map_of_idle {q : Chart α → Nat} (hidle : ∀ c, c.isIdle = true → q c = 1)
    (cs : List (Chart α)) :
    (cs.map q).sum = cs.countP Chart.isIdle + ((cs.filter fun c => !c.isIdle).map q).sum := by
  induction cs with
  | nil => rfl
  | cons c cs ih =>
    rw [List.map_cons, List.sum_cons, ih]
    by_cases hc : c.isIdle = true
    · rw [hidle c hc]
      simp [hc]
      omega
    · simp [hc]
      omega

/-- **Counting blocks.**  What is one for idle time, `k` for every other task, and for a group `k`
    more than for its parts together, counts `k` for each span and one for each idle task around its
    children. -/
theorem count_of_drawn {trace : Trace α} {q : Chart α → Nat} {k : Nat}
    (hidle : ∀ c, c.isIdle = true → q c = 1) (htask : ∀ t, t.idle = false → q (.task t) = k)
    (hgroup : ∀ flow corner first rest,
      q (.group flow corner first rest) = k + ((first :: rest).map q).sum)
    {f : Family α} {b : Chart α} (hf : f.ListedIn trace) (hb : f.Drawn b) :
    q b = k * f.spans.length + (f.spans.map trace.idleAround).sum := by
  induction f generalizing b with
  | ofNode s fs ih =>
    cases hf with
    | node hs hheads hbranches =>
      by_cases hfs : fs = []
      · subst hfs
        rcases hb.cases with ⟨-, t, rfl, -, ht⟩ | ⟨hne, -⟩ | ⟨hne, -⟩
        · have haround : trace.idleAround s = 0 := by
            rw [Trace.idleAround, ← hheads]
            simp
          simp [spans_node, haround, htask t ht]
        · exact absurd rfl hne
        · exact absurd rfl hne
      · obtain ⟨flow, corner, first, rest, rfl, hdrawn, hcount⟩ := hb.parts hfs
        -- what is not idle in the group is drawn of the branches, which are counted already
        have hparts : fs.map (fun f => k * f.spans.length + (f.spans.map trace.idleAround).sum) =
            ((first :: rest).filter fun b => !b.isIdle).map q :=
          map_eq_of_forall₂ hdrawn fun f hf b hb => (ih f hf (hbranches f hf) hb).symm
        rw [hgroup, sum_map_of_idle hidle, hcount, ← hparts, List.sum_map_add,
          List.sum_map_mul_left, spans_node, List.length_cons, List.length_flatMap, List.map_cons,
          List.sum_cons, sum_map_flatMap_spans, idleAround_node hheads hfs]
        ring

/-! ## Listing the tasks -/

/-- Charts that add nothing to a list may be left out. -/
theorem flatMap_of_idle {β : Type} {list : Chart α → List β}
    (hidle : ∀ c, c.isIdle = true → list c = []) (cs : List (Chart α)) :
    cs.flatMap list = (cs.filter fun c => !c.isIdle).flatMap list := by
  induction cs with
  | nil => rfl
  | cons c cs ih =>
    rw [List.flatMap_cons, ih]
    by_cases hc : c.isIdle = true
    · simp [hidle c hc, hc]
    · simp [hc]

/-- **The work of a chart** is that of the spans without children, depth first. -/
theorem work_of_drawn {trace : Trace α} {f : Family α} {b : Chart α} (hf : f.ListedIn trace)
    (hb : f.Drawn b) :
    (b.tasks.filter fun t => !t.idle).map Task.work =
      (f.spans.filter fun s => (trace.childrenOf s).isEmpty).map Span.work := by
  induction f generalizing b with
  | ofNode s fs ih =>
    cases hf with
    | node hs hheads hbranches =>
      by_cases hfs : fs = []
      · subst hfs
        have hnone : (trace.childrenOf s).isEmpty = true := by
          rw [← hheads]
          rfl
        rcases hb.cases with ⟨-, t, rfl, hwork, ht⟩ | ⟨hne, -⟩ | ⟨hne, -⟩
        · simp [spans_node, Chart.tasks, hnone, ht, hwork]
        · exact absurd rfl hne
        · exact absurd rfl hne
      · obtain ⟨flow, corner, first, rest, rfl, hdrawn, -⟩ := hb.parts hfs
        have hsome : (trace.childrenOf s).isEmpty = false := by
          rw [← hheads]
          simp [hfs]
        have hidle : ∀ c : Chart α, c.isIdle = true →
            (c.tasks.filter fun t => !t.idle).map Task.work = [] := by
          intro c hc
          obtain ⟨t, rfl, ht⟩ := Chart.isIdle_iff.1 hc
          simp [Chart.tasks, ht]
        -- idle parts do no work, and the others do that of the branches they are drawn of
        have hparts : fs.map (fun f =>
              (f.spans.filter fun s => (trace.childrenOf s).isEmpty).map Span.work) =
            ((first :: rest).filter fun c => !c.isIdle).map fun c =>
              (c.tasks.filter fun t => !t.idle).map Task.work :=
          map_eq_of_forall₂ hdrawn fun f hf b hb => (ih f hf (hbranches f hf) hb).symm
        rw [Chart.tasks_group, List.filter_flatMap, List.map_flatMap, flatMap_of_idle hidle,
          List.flatMap_def, ← hparts, ← List.flatMap_def, spans_node,
          List.filter_cons_of_neg (by rw [hsome]; exact Bool.false_ne_true), List.filter_flatMap,
          List.map_flatMap]

end Family

variable [Scalar α]

namespace Chart

theorem length_outline_parts (level : Nat) (flow : Flow) (corner : Point α) (first : Chart α)
    (rest : List (Chart α)) : ((group flow corner first rest).outline level).length =
      1 + ((first :: rest).map fun c => (c.outline (level + 1)).length).sum := by
  rw [outline, outlineOf_eq_flatMap, List.length_cons, ← List.flatMap_cons, List.length_flatMap,
    Nat.add_comm]

/-- However deep a chart lies, its outline is as long. -/
theorem length_outline (c : Chart α) (level : Nat) :
    (c.outline level).length = (c.outline 0).length := by
  induction c using inductParts generalizing level with
  | ofTask t => rfl
  | ofGroup flow corner first rest ih =>
    have hdown : ∀ l : Nat, ((first :: rest).map fun c => (c.outline (l + 1)).length) =
        (first :: rest).map fun c => (c.outline 0).length :=
      fun l => List.map_congr_left fun c hc => ih c hc (l + 1)
    rw [length_outline_parts, length_outline_parts, hdown, hdown]

/-- A group has itself in its outline, and its parts have theirs. -/
theorem length_outline_group (flow : Flow) (corner : Point α) (first : Chart α)
    (rest : List (Chart α)) : ((group flow corner first rest).outline 0).length =
      1 + ((first :: rest).map fun c => (c.outline 0).length).sum := by
  have hdown : ((first :: rest).map fun c => (c.outline (0 + 1)).length) =
      (first :: rest).map fun c => (c.outline 0).length :=
    List.map_congr_left fun c _ => c.length_outline 1
  rw [length_outline_parts, hdown]

end Chart

/-! ## The two counts -/

section Counts

variable {trace : Trace α} {f : Family α} {c : Chart α}

/-- Idle tasks are there for the spans whose children took turns, and for nothing else. -/
theorem countP_idle_of_drawn (hf : f.ListedIn trace) (hc : f.Drawn c) :
    c.tasks.countP Task.idle = (f.spans.map trace.idleAround).sum := by
  have hidle : ∀ d : Chart α, d.isIdle = true → d.tasks.countP Task.idle = 1 := by
    intro d hd
    obtain ⟨t, rfl, ht⟩ := Chart.isIdle_iff.1 hd
    simp [Chart.tasks, ht]
  have htask : ∀ t : Task α, t.idle = false → (Chart.task t).tasks.countP Task.idle = 0 := by
    intro t ht
    simp [Chart.tasks, ht]
  have hgroup : ∀ flow corner first rest,
      (Chart.group flow corner first rest : Chart α).tasks.countP Task.idle =
        0 + ((first :: rest).map fun d => d.tasks.countP Task.idle).sum := by
    intro flow corner first rest
    rw [Chart.tasks_group, List.countP_flatMap, Nat.zero_add]
    rfl
  have hcount := Family.count_of_drawn hidle htask hgroup hf hc
  rwa [Nat.zero_mul, Nat.zero_add] at hcount

/-- There is no more than one task for every span and idle time for every pair of spans. -/
theorem length_tasks_of_drawn (hf : f.ListedIn trace) (hc : f.Drawn c) :
    c.tasks.length ≤ f.spans.length * (trace.length + 2) := by
  have hwork : (c.tasks.filter fun t => !t.idle).length ≤ f.spans.length := by
    calc (c.tasks.filter fun t => !t.idle).length
        = ((c.tasks.filter fun t => !t.idle).map Task.work).length := (List.length_map _).symm
      _ = (f.spans.filter fun s => (trace.childrenOf s).isEmpty).length := by
          rw [Family.work_of_drawn hf hc, List.length_map]
      _ ≤ f.spans.length := List.length_filter_le _ _
  have hidle : (f.spans.map trace.idleAround).sum ≤ f.spans.length * (trace.length + 1) := by
    have hsum := List.sum_le_card_nsmul (f.spans.map trace.idleAround) (trace.length + 1) ?_
    · rwa [List.length_map, smul_eq_mul] at hsum
    · intro n hn
      obtain ⟨s, -, rfl⟩ := List.mem_map.1 hn
      have hchildren : (trace.childrenOf s).length ≤ trace.length := List.length_filter_le _ _
      unfold Trace.idleAround
      split <;> omega
  rw [← countP_idle_of_drawn hf hc, List.countP_eq_length_filter] at hidle
  rw [List.length_eq_length_filter_add Task.idle, Nat.mul_succ]
  exact Nat.add_le_add hidle hwork

/-- Every block stands for a span or is idle. -/
theorem length_outline_of_drawn (hf : f.ListedIn trace) (hc : f.Drawn c) :
    (c.outline 0).length = f.spans.length + (f.spans.map trace.idleAround).sum := by
  have hidle : ∀ d : Chart α, d.isIdle = true → (d.outline 0).length = 1 := by
    intro d hd
    obtain ⟨t, rfl, -⟩ := Chart.isIdle_iff.1 hd
    rfl
  have htask : ∀ t : Task α, t.idle = false → ((Chart.task t).outline 0).length = 1 :=
    fun _ _ => rfl
  have hcount := Family.count_of_drawn hidle htask Chart.length_outline_group hf hc
  rwa [Nat.one_mul] at hcount

end Counts

/-! ## Layouts -/

/-- What a chart shows of one span, the block of each being where `path` says. -/
structure Portrays (trace : Trace α) (c : Chart α) (path : Span α → List Nat) (s : Span α) :
    Prop where
  /-- Without children it is a task, from when to when and on which thread the span says. -/
  alone : trace.childrenOf s = [] →
    ∃ t, c.at? (path s) = some (.task t) ∧ t.work = s.work ∧ t.idle = false
  /-- A join is a parallel group of the blocks of its children and nothing else. -/
  join : trace.childrenOf s ≠ [] → s.isJoin = true →
    ∃ d, c.at? (path s) = some d ∧ d.flow? = some .parallel ∧
      d.parts.length = (trace.childrenOf s).length ∧
      ∀ i t, (trace.childrenOf s)[i]? = some t → path t = path s ++ [i]
  /-- Any other span is a sequence, of idle tasks at the even positions and the blocks of its
      children at the odd ones. -/
  turns : trace.childrenOf s ≠ [] → s.isJoin = false →
    ∃ d, c.at? (path s) = some d ∧ d.flow? = some .sequential ∧
      d.parts.length = 2 * (trace.childrenOf s).length + 1 ∧
      (∀ i ≤ (trace.childrenOf s).length, ∃ t, d.parts[2 * i]? = some (.task t) ∧ t.idle = true) ∧
      ∀ i t, (trace.childrenOf s)[i]? = some t → path t = path s ++ [2 * i + 1]

section Shown

variable {trace : Trace α} {f : Family α} {path : Span α → List Nat}
  (hpath : ∀ p g, f.ShownAt p g → path g.head = p)

include hpath

omit [Scalar α] in
/-- Children are shown right below their parents. -/
theorem path_child {s : Span α} {fs : List (Family α)} {p : List Nat}
    (hg : f.ShownAt p (.node s fs)) (hheads : fs.map Family.head = trace.childrenOf s) (i : Nat)
    (t : Span α) (ht : (trace.childrenOf s)[i]? = some t) : path t = path s ++ [s.seat i] := by
  rw [← hheads, List.getElem?_map] at ht
  obtain ⟨e, he, rfl⟩ := Option.map_eq_some_iff.1 ht
  have hparent : path s = p := hpath p (.node s fs) hg
  have hchild : path e.head = p ++ [s.seat i] := hpath _ e (hg.snoc he)
  rw [hchild, hparent]

/-- A chart drawn of a family portrays every span where its own family is shown. -/
theorem portrays_of_shownAt {c : Chart α} (hf : f.ListedIn trace) (hc : f.Drawn c) {g : Family α}
    {p : List Nat} (hg : f.ShownAt p g) : Portrays trace c path g.head := by
  obtain ⟨d, hd, hdrawn⟩ := Family.at?_of_shownAt hc hg
  have hlisted := hg.listedIn hf
  rw [← hpath p g hg] at hd
  cases g with
  | node s fs =>
    cases hlisted with
    | node hs hheads hbranches =>
      have hchild := path_child hpath hg hheads
      have hlength : (trace.childrenOf s).length = fs.length := by
        rw [← hheads, List.length_map]
      show Portrays trace c path s
      rcases hdrawn.cases with ⟨rfl, t, rfl, hwork, ht⟩ |
        ⟨hfs, hjoin, corner, first, rest, rfl, hparts⟩ |
        ⟨hfs, hjoin, corner, first, rest, rfl, hturns⟩
      · have hnone : trace.childrenOf s = [] := hheads.symm
        exact ⟨fun _ => ⟨t, hd, hwork, ht⟩, fun hsome => absurd hnone hsome,
          fun hsome => absurd hnone hsome⟩
      -- a join: a lane for each child, in the seat of the child
      · have hsome : trace.childrenOf s ≠ [] := by
          rwa [← hheads, ne_eq, List.map_eq_nil_iff]
        refine ⟨fun hnone => absurd hnone hsome, fun _ _ => ⟨_, hd, rfl, ?_, ?_⟩,
          fun _ hturn => absurd hjoin (Bool.eq_false_iff.1 hturn)⟩
        · rw [hlength]
          exact hparts.length_eq.symm
        · simpa only [Span.seat, if_pos hjoin] using hchild
      -- a sequence: seats of children with idle time between them and around them
      · have hsome : trace.childrenOf s ≠ [] := by
          rwa [← hheads, ne_eq, List.map_eq_nil_iff]
        have hturn := Bool.eq_false_iff.1 hjoin
        refine ⟨fun hnone => absurd hnone hsome, fun _ hj => absurd hj hturn,
          fun _ _ => ⟨_, hd, rfl, ?_, ?_, ?_⟩⟩
        · rw [hlength]
          exact hturns.length_eq
        · intro i hi
          rw [hlength] at hi
          exact hturns.getElem?_even hi
        · simpa only [Span.seat, if_neg hturn] using hchild

end Shown

namespace Layout

/-- **A chart portrays its trace.**  The blocks that are not idle are those of the spans, each at a
    path of its own: the root's at the top, and every child's right below its parent's, in trace
    order.  The tasks among them are those of the spans without children, in the order of the family
    that the trace lists, and every other block is idle time around the children of some span. -/
theorem chart_portrays_trace {trace : Trace α} {layout : Layout α}
    (h : ofTrace trace = .ok layout) :
    ∃ (path : Span α → List Nat) (family : Family α),
      trace.Nodup ∧
      Set.BijOn path {s | s ∈ trace}
        {p | ∃ b, layout.chart.at? p = some b ∧ b.isIdle = false} ∧
      (∀ s ∈ trace, s.parent = noParent → path s = []) ∧
      (∀ s ∈ trace, Portrays trace layout.chart path s) ∧
      family.ListedIn trace ∧ family.spans.Perm trace ∧
      (layout.chart.tasks.filter fun t => !t.idle).map Task.work =
        (family.spans.filter fun s => (trace.childrenOf s).isEmpty).map Span.work ∧
      layout.chart.tasks.countP Task.idle = (trace.map trace.idleAround).sum ∧
      (layout.chart.outline 0).length = trace.length + layout.chart.tasks.countP Task.idle := by
  obtain ⟨f, hlisted, hroot, hperm, hdrawn, -⟩ := exists_drawn h
  have hrooted := rooted_of_check (exists_check_of_ofTrace h)
  have hnodup : trace.Nodup := hrooted.distinct.of_map _
  have hfnodup : f.spans.Nodup := hperm.nodup_iff.2 hnodup
  -- the path of a span is where its family is shown
  have hshown : ∀ s ∈ trace, ∃ p g, f.ShownAt p g ∧ g.head = s :=
    fun s hs => Family.exists_shownAt (hperm.mem_iff.2 hs)
  choose! path fam hfam hhead using hshown
  have hpath : ∀ p g, f.ShownAt p g → path g.head = p := by
    intro p g hg
    have hmem : g.head ∈ trace := hperm.mem_iff.1 hg.head_mem
    exact (hfam _ hmem).path_unique hfnodup hg (hhead _ hmem)
  have hportrays : ∀ s ∈ trace, Portrays trace layout.chart path s := by
    intro s hs
    have := portrays_of_shownAt hpath hlisted hdrawn (hfam s hs)
    rwa [hhead s hs] at this
  have hidle := countP_idle_of_drawn hlisted hdrawn
  have hblocks := length_outline_of_drawn hlisted hdrawn
  refine ⟨path, f, hnodup, ⟨?_, ?_, ?_⟩, ?_, hportrays, hlisted, hperm,
    Family.work_of_drawn hlisted hdrawn, ?_, ?_⟩
  · intro s hs
    obtain ⟨d, hd, hg⟩ := Family.at?_of_shownAt hdrawn (hfam s hs)
    exact ⟨d, hd, hg.isIdle⟩
  · intro s hs t ht hst
    have hs' := hfam s hs
    rw [hst] at hs'
    rw [← hhead s hs, ← hhead t ht, hs'.unique (hfam t ht)]
  · rintro p ⟨b, hb, hwork⟩
    obtain ⟨g, hg, -⟩ := Family.shownAt_of_at? hdrawn hb hwork
    exact ⟨g.head, hperm.mem_iff.1 hg.head_mem, hpath p g hg⟩
  · intro s hs hparent
    have hmem : f.head ∈ trace := hperm.mem_iff.1 f.head_mem_spans
    obtain rfl := hrooted.eq_of_isRoot hmem hs hroot hparent
    exact hpath [] f (.here f)
  · rw [hidle, (hperm.map trace.idleAround).sum_eq]
  · rw [hblocks, hidle, hperm.length_eq]

/-- Idle time is around the join and what comes after it, so that three of the eight blocks are
    idle. -/
theorem exists_layout_of_joinInTurns :
    ∃ layout, ofTrace joinInTurns = .ok layout ∧ layout.chart.tasks.countP Task.idle = 3 ∧
      (layout.chart.outline 0).length = 8 := by
  obtain ⟨layout, h⟩ := exists_ofTrace_joinInTurns
  obtain ⟨-, -, -, -, -, -, -, -, -, hidle, hblocks⟩ := chart_portrays_trace h
  have hsum : (joinInTurns.map joinInTurns.idleAround).sum = 3 := by decide
  have hlength : joinInTurns.length = 5 := rfl
  rw [hsum] at hidle
  rw [hidle, hlength] at hblocks
  exact ⟨layout, h, hidle, hblocks⟩

end Layout

end SpanChart
