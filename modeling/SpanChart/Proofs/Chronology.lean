/-
  CHRONOLOGY — whether the links of a chart point forwards in time.

  Links are made of the shape of a chart, and nothing in making them looks at a time.  They run with
  time nevertheless, if the spans do what their nesting says: a child stays within its parent, and
  children that took turns do not overlap (`Nested`).

  The argument goes down the family that a trace lists.  All tasks drawn of a family stay within the
  interval of its head (`Drawn.within`), joins included, though these say nothing of time
  themselves.  So in a sequence the parts follow one another, the idle time between them included,
  for this is clamped at both ends by times that are in order (`Turns.inOrder`).  From there what
  precedes ends before what it precedes starts (`Drawn.finish_le_start`), and links only join such.
-/
import SpanChart.Proofs.Covering
import SpanChart.Proofs.Drawn

namespace SpanChart

open Scalar (larger_le IsNumber Ordered Linear)

variable {α : Type} [Scalar α]

/-- Children stay within their parents, and if they took turns each ends before the next starts. -/
structure Nested (trace : Trace α) : Prop where
  inside : ∀ s ∈ trace, ∀ t ∈ trace, t.parent = s.id → s.start ≤ t.start ∧ t.finish ≤ s.finish
  inTurn : ∀ s ∈ trace, s.isJoin = false →
    (trace.childrenOf s).IsChain fun a b => a.finish ≤ b.start

/-- The tasks of a chart all run within an interval. -/
def Chart.RunsIn (c : Chart α) (low high : α) : Prop :=
  ∀ t ∈ c.tasks, low ≤ t.start ∧ t.finish ≤ high

/-- The tasks of one chart have all ended when those of another start. -/
def Chart.EndsBefore (c d : Chart α) : Prop :=
  ∀ t ∈ c.tasks, ∀ u ∈ d.tasks, t.finish ≤ u.start

namespace Chart

variable [Linear α] {c d : Chart α} {low high low' high' mid mid' : α}

omit [Linear α] in
theorem runsIn_task {t : Task α} (hlow : low ≤ t.start) (hhigh : t.finish ≤ high) :
    (task t).RunsIn low high := by
  intro u hu
  obtain rfl := List.mem_singleton.1 hu
  exact ⟨hlow, hhigh⟩

omit [Linear α] in
theorem runsIn_group {flow : Flow} {corner : Point α} {first : Chart α} {rest : List (Chart α)}
    (h : ∀ d ∈ first :: rest, d.RunsIn low high) :
    (group flow corner first rest).RunsIn low high := by
  intro t ht
  rw [tasks_group] at ht
  obtain ⟨d, hd, ht⟩ := List.mem_flatMap.1 ht
  exact h d hd t ht

theorem RunsIn.mono (h : c.RunsIn low high) (hlow : low' ≤ low) (hhigh : high ≤ high') :
    c.RunsIn low' high' :=
  fun t ht => ⟨Linear.le_trans hlow (h t ht).1, Linear.le_trans (h t ht).2 hhigh⟩

/-- A chart has a task, and time runs forwards there. -/
theorem RunsIn.le (h : c.RunsIn low high) : low ≤ high := by
  obtain ⟨t, ht⟩ := List.exists_mem_of_ne_nil _ c.tasks_ne_nil
  calc low ≤ t.start := (h t ht).1
    _ ≤ t.finish := t.ordered
    _ ≤ high := (h t ht).2

theorem RunsIn.endsBefore (hc : c.RunsIn low mid) (hd : d.RunsIn mid' high) (hmid : mid ≤ mid') :
    c.EndsBefore d := by
  intro t ht u hu
  calc t.finish ≤ mid := (hc t ht).2
    _ ≤ mid' := hmid
    _ ≤ u.start := (hd u hu).1

end Chart

namespace Family

variable [Linear α]

/-- Idle time up to what comes next, if it comes no earlier. -/
theorem runsIn_idle {t : Task α} {thread : UInt64} {since next : α}
    (ht : t.IdleBetween thread since next) (h : since ≤ next) :
    (Chart.task t).RunsIn since next := by
  obtain ⟨hsince, hnext⟩ := Ordered.isNumber_of_le h
  refine Chart.runsIn_task ?_ ?_
  · rw [ht.start]
    exact hsince
  · rw [ht.finish]
    exact larger_le h hnext

/-- **Parts of a sequence.**  Families that are in order, each within its own interval, are drawn
    in order, and the idle time around them as well. -/
theorem Turns.inOrder {thread : UInt64} {finish since : α} {fs : List (Family α)}
    {bs : List (Chart α)} (h : Turns thread finish since fs bs) (hsince : since ≤ finish)
    (hfirst : ∀ f ∈ fs.head?, since ≤ f.head.start)
    (hchain : fs.IsChain fun f g => f.head.finish ≤ g.head.start)
    (hlast : ∀ f ∈ fs, f.head.finish ≤ finish)
    (hwithin : ∀ f ∈ fs, ∀ b, f.Drawn b → b.RunsIn f.head.start f.head.finish) :
    (∀ b ∈ bs, b.RunsIn since finish) ∧ bs.Pairwise Chart.EndsBefore := by
  induction h with
  | @last since t ht =>
    refine ⟨fun b hb => ?_, List.pairwise_singleton _ _⟩
    obtain rfl := List.mem_singleton.1 hb
    exact runsIn_idle ht hsince
  | @turn since f fs t b bs ht hb hrest ih =>
    obtain ⟨hnext, hchain⟩ := List.isChain_cons.1 hchain
    have hstart : since ≤ f.head.start := hfirst f rfl
    have hfinish : f.head.finish ≤ finish := hlast f List.mem_cons_self
    have hidle : (Chart.task t).RunsIn since f.head.start := runsIn_idle ht hstart
    have hwork : b.RunsIn f.head.start f.head.finish := hwithin f List.mem_cons_self b hb
    obtain ⟨hin, horder⟩ := ih hfinish hnext hchain
      (fun g hg => hlast g (List.mem_cons_of_mem f hg))
      (fun g hg => hwithin g (List.mem_cons_of_mem f hg))
    have hnumbers := Ordered.isNumber_of_le hwork.le
    -- the rest of the row begins where the family has ended
    have hpast : since ≤ f.head.finish := Linear.le_trans hstart hwork.le
    constructor
    · intro c hc
      rcases List.mem_cons.1 hc with rfl | hc
      · exact hidle.mono (Ordered.isNumber_of_le hstart).1 (Linear.le_trans hwork.le hfinish)
      rcases List.mem_cons.1 hc with rfl | hc
      · exact hwork.mono hstart hfinish
      · exact (hin c hc).mono hpast (Ordered.isNumber_of_le hfinish).2
    -- idle time comes before the work, and both before whatever follows
    · refine List.pairwise_cons.2 ⟨fun c hc => ?_, List.pairwise_cons.2 ⟨fun c hc => ?_, horder⟩⟩
      · rcases List.mem_cons.1 hc with rfl | hc
        · exact hidle.endsBefore hwork hnumbers.1
        · exact hidle.endsBefore (hin c hc) hwork.le
      · exact hwork.endsBefore (hin c hc) hnumbers.2

section Nested

variable {trace : Trace α} (nested : Nested trace)

include nested

omit [Linear α] in
/-- The branches of a listed family, within the interval of its head. -/
theorem branch_inside {s : Span α} {fs : List (Family α)} (hf : (node s fs).ListedIn trace)
    {f : Family α} (hmem : f ∈ fs) : s.start ≤ f.head.start ∧ f.head.finish ≤ s.finish := by
  cases hf with
  | node hs hheads hbranches =>
    have hchild : f.head ∈ trace.childrenOf s := by
      rw [← hheads]
      exact List.mem_map_of_mem hmem
    obtain ⟨ht, hparent⟩ := List.mem_filter.1 hchild
    exact nested.inside s hs f.head ht (beq_iff_eq.1 hparent)

/-- The parts of a sequence are within the interval of the span, and in order. -/
theorem turns_inOrder {s : Span α} {fs : List (Family α)} (hf : (node s fs).ListedIn trace)
    (hfs : fs ≠ []) (hjoin : s.isJoin = false) {bs : List (Chart α)}
    (hturns : Turns s.thread s.finish s.start fs bs)
    (hwithin : ∀ f ∈ fs, ∀ b, f.Drawn b → b.RunsIn f.head.start f.head.finish) :
    (∀ b ∈ bs, b.RunsIn s.start s.finish) ∧ bs.Pairwise Chart.EndsBefore := by
  have hinside := fun f (hmem : f ∈ fs) => branch_inside nested hf hmem
  cases hf with
  | node hs hheads hbranches =>
    have hchain : fs.IsChain fun f g => f.head.finish ≤ g.head.start := by
      have := nested.inTurn s hs hjoin
      rwa [← hheads, List.isChain_map] at this
    -- the span itself runs forwards, because a branch does
    obtain ⟨f, hmem⟩ := List.exists_mem_of_ne_nil fs hfs
    obtain ⟨i, hi⟩ := List.getElem?_of_mem hmem
    obtain ⟨b, -, hb⟩ := hturns.getElem?_odd hi
    have hforwards : s.start ≤ s.finish := by
      calc s.start ≤ f.head.start := (hinside f hmem).1
        _ ≤ f.head.finish := (hwithin f hmem b hb).le
        _ ≤ s.finish := (hinside f hmem).2
    exact hturns.inOrder hforwards (fun g hg => (hinside g (List.mem_of_mem_head? hg)).1) hchain
      (fun g hg => (hinside g hg).2) hwithin

/-- **The tasks drawn of a family** run within the interval of its head. -/
theorem Drawn.within {f : Family α} (hf : f.ListedIn trace) {b : Chart α} (hb : f.Drawn b) :
    b.RunsIn f.head.start f.head.finish := by
  induction f generalizing b with
  | ofNode s fs ih =>
    have hlisted := hf
    cases hf with
    | node hs hheads hbranches =>
      have hwithin : ∀ f ∈ fs, ∀ b, f.Drawn b → b.RunsIn f.head.start f.head.finish :=
        fun f hmem b hb => ih f hmem (hbranches f hmem) hb
      rcases hb.cases with ⟨-, t, rfl, hwork, -⟩ | ⟨-, hjoin, corner, first, rest, rfl, hparts⟩ |
        ⟨hfs, hjoin, corner, first, rest, rfl, hturns⟩
      -- a task takes the times of its span, which are numbers because they are in order
      · obtain ⟨hstart, hrest⟩ := Prod.mk.inj hwork
        obtain ⟨hfinish, -⟩ := Prod.mk.inj hrest
        obtain ⟨hfrom, hto⟩ := Ordered.isNumber_of_le t.ordered
        refine Chart.runsIn_task ?_ ?_
        · show s.start ≤ t.start
          rw [← hstart]
          exact hfrom
        · show t.finish ≤ s.finish
          rw [← hfinish]
          exact hto
      -- lanes are charts of children, which are inside
      · refine Chart.runsIn_group fun d hd => ?_
        obtain ⟨i, hi⟩ := List.getElem?_of_mem hd
        obtain ⟨f, hfi, hdrawn⟩ := exists_left_of_forall₂ hparts hi
        have hmem := List.mem_of_getElem? hfi
        obtain ⟨hfrom, hto⟩ := branch_inside nested hlisted hmem
        exact (hwithin f hmem d hdrawn).mono hfrom hto
      -- in a sequence there is idle time as well
      · exact Chart.runsIn_group (turns_inOrder nested hlisted hfs hjoin hturns hwithin).1

/-- The parts of a sequence follow one another. -/
theorem Drawn.inOrder {s : Span α} {fs : List (Family α)} (hf : (node s fs).ListedIn trace)
    {b : Chart α} (hb : (node s fs).Drawn b) (hflow : b.flow? = some .sequential) :
    b.parts.Pairwise Chart.EndsBefore := by
  rcases hb.cases with ⟨-, t, rfl, -⟩ | ⟨-, -, corner, first, rest, rfl, -⟩ |
    ⟨hfs, hjoin, corner, first, rest, rfl, hturns⟩
  · cases hflow
  · cases hflow
  · have hwithin : ∀ f ∈ fs, ∀ b, f.Drawn b → b.RunsIn f.head.start f.head.finish := by
      intro f hmem b hb
      cases hf with
      | node hs hheads hbranches => exact hb.within nested (hbranches f hmem)
    exact (turns_inOrder nested hf hfs hjoin hturns hwithin).2

/-- **What precedes has ended** before what it precedes starts. -/
theorem Drawn.finish_le_start {f : Family α} (hf : f.ListedIn trace) {b : Chart α}
    (hb : f.Drawn b) {p q : List Nat} {t u : Task α} (ht : b.at? p = some (.task t))
    (hu : b.at? q = some (.task u)) (hpq : b.Precedes p q) : t.finish ≤ u.start := by
  induction f generalizing b p q with
  | ofNode s fs ih =>
    obtain ⟨i, p, j, q, rfl, rfl⟩ := hpq.exists_cons
    rw [Chart.at?_cons] at ht hu
    obtain ⟨c, hc, htc⟩ := Option.bind_eq_some_iff.1 ht
    obtain ⟨d, hd, hud⟩ := Option.bind_eq_some_iff.1 hu
    rcases Chart.parted_cons.1 hpq with ⟨hflow, hij⟩ | ⟨rfl, e, he, hbelow⟩
    · -- they are in different parts of a sequence
      have horder := hb.inOrder nested hf hflow
      obtain ⟨hi, rfl⟩ := List.getElem?_eq_some_iff.1 hc
      obtain ⟨hj, rfl⟩ := List.getElem?_eq_some_iff.1 hd
      exact List.pairwise_iff_getElem.1 horder i j hi hj hij
        t (Chart.tasks_subset_of_at? htc (List.mem_singleton_self t))
        u (Chart.tasks_subset_of_at? hud (List.mem_singleton_self u))
    · -- they are in one part, and this is not idle, because it has parts itself
      obtain rfl : c = d := Option.some.inj (hc.symm.trans hd)
      obtain rfl : c = e := Option.some.inj (hc.symm.trans he)
      rcases branch_of_part hb hc with ⟨k, g, rfl, hg, hdrawn⟩ | hidle
      · have hmem := List.mem_of_getElem? hg
        cases hf with
        | node hs hheads hbranches =>
          exact ih g hmem (hbranches g hmem) hdrawn htc hud hbelow
      · obtain ⟨idle, rfl, -⟩ := Chart.isIdle_iff.1 hidle
        obtain ⟨k, p, -, -, rfl, -⟩ := hbelow.exists_cons
        exact absurd htc (by simp [Chart.at?_cons, Chart.parts])

end Nested

end Family

namespace Layout

open Family

/-- A trace that is not nested has a child that leaves its parent's interval, or two children of a
    span that is no join, one right after the other, that overlap. -/
theorem exists_of_not_nested [Ordered α] {trace : Trace α}
    (numbers : ∀ s ∈ trace, IsNumber s.start ∧ IsNumber s.finish) (h : ¬Nested trace) :
    (∃ s ∈ trace, ∃ t ∈ trace, t.parent = s.id ∧ (t.start < s.start ∨ s.finish < t.finish)) ∨
      ∃ s ∈ trace, s.isJoin = false ∧
        ∃ a b, [a, b] <:+: trace.childrenOf s ∧ b.start < a.finish := by
  by_contra hnone
  obtain ⟨hinside, hturns⟩ := not_or.1 hnone
  apply h
  constructor
  · intro s hs t ht hparent
    have hstart : ¬t.start < s.start :=
      fun hlt => hinside ⟨s, hs, t, ht, hparent, Or.inl hlt⟩
    have hfinish : ¬s.finish < t.finish :=
      fun hlt => hinside ⟨s, hs, t, ht, hparent, Or.inr hlt⟩
    exact ⟨Ordered.le_of_not_lt (numbers s hs).1 (numbers t ht).1 hstart,
      Ordered.le_of_not_lt (numbers t ht).2 (numbers s hs).2 hfinish⟩
  · intro s hs hjoin
    rw [List.isChain_iff_forall_rel_of_append_cons_cons]
    intro a b before after hchildren
    -- children are a chain if any two neighbours among them are in order
    have hpair : [a, b] <:+: trace.childrenOf s := ⟨before, after, by rw [hchildren]; simp⟩
    have hmem : ∀ c ∈ [a, b], c ∈ trace :=
      fun c hc => (List.mem_filter.1 (hpair.subset hc)).1
    have hnot : ¬b.start < a.finish :=
      fun hlt => hturns ⟨s, hs, hjoin, a, b, hpair, hlt⟩
    exact Ordered.le_of_not_lt (numbers a (hmem a (by simp))).2 (numbers b (hmem b (by simp))).1
      hnot

/-- **Links point forwards in time.**  If the spans are nested, of any two leaves of which one
    precedes the other this one has ended when the other starts, and the leaves of a linked pair are
    such.  So where a link points backwards a child leaves the interval of its parent, or two
    children of a span that is no join, one right after the other, overlap. -/
theorem links_follow_time [Linear α] {trace : Trace α} {layout : Layout α}
    (h : ofTrace trace = .ok layout) :
    layout.links =
        layout.chart.linkPairs.map (fun st => ⟨st.1.task.exit, st.2.task.entry⟩) ∧
      (Nested trace →
        (∀ s t : Chart.LeafOf layout.chart, layout.chart.Precedes s.path t.path →
          s.task.finish ≤ t.task.start) ∧
        ∀ st ∈ layout.chart.linkPairs, st.1.task.finish ≤ st.2.task.start) ∧
      ((∀ s ∈ trace, IsNumber s.start ∧ IsNumber s.finish) →
        ∀ st ∈ layout.chart.linkPairs, st.2.task.start < st.1.task.finish →
          (∃ s ∈ trace, ∃ t ∈ trace, t.parent = s.id ∧
            (t.start < s.start ∨ s.finish < t.finish)) ∨
          ∃ s ∈ trace, s.isJoin = false ∧
            ∃ a b, [a, b] <:+: trace.childrenOf s ∧ b.start < a.finish) := by
  obtain ⟨f, hlisted, -, -, hdrawn, hlinks⟩ := exists_drawn h
  have hprecedes : Nested trace → ∀ s t : Chart.LeafOf layout.chart,
      layout.chart.Precedes s.path t.path → s.task.finish ≤ t.task.start :=
    fun nested s t => hdrawn.finish_le_start nested hlisted (Chart.mem_leaves.1 s.mem)
      (Chart.mem_leaves.1 t.mem)
  have hforwards : Nested trace →
      ∀ st ∈ layout.chart.linkPairs, st.1.task.finish ≤ st.2.task.start := by
    rintro nested ⟨s, t⟩ hst
    have hlt : s < t := (Chart.mem_linkPairs_iff_covBy.1 hst).lt
    exact hprecedes nested s t (Chart.LeafOf.lt_iff_precedes.1 hlt)
  refine ⟨?_, fun nested => ⟨hprecedes nested, hforwards nested⟩, fun numbers st hst hback => ?_⟩
  · rw [hlinks]
    exact layout.chart.innerLinks_eq_map_linkPairs
  · -- where all spans are nested no link points backwards
    refine exists_of_not_nested numbers fun nested => ?_
    exact Ordered.not_lt_of_le (hforwards nested st hst) hback

/-- None of the six links of a join and what comes after it points backwards. -/
theorem exists_links_of_joinInTurns :
    Nested joinInTurns ∧ ∃ layout, ofTrace joinInTurns = .ok layout ∧
      layout.chart.linkPairs.length = 6 ∧
      ∀ st ∈ layout.chart.linkPairs, st.1.task.finish ≤ st.2.task.start := by
  have nested : Nested joinInTurns := ⟨by decide, by decide⟩
  have hsix : (ofTrace joinInTurns).toOption.any (fun l => l.chart.linkPairs.length == 6) = true :=
    by decide +kernel
  obtain ⟨layout, h⟩ := exists_ofTrace_joinInTurns
  obtain ⟨-, hforwards, -⟩ := links_follow_time h
  rw [h] at hsix
  exact ⟨nested, layout, h, beq_iff_eq.1 hsix, (hforwards nested).2⟩

-- the idle time between children that overlap has no room, and lies after the second has started
example : (ofTrace ([⟨1, 0, 0, 10, 0, ""⟩, ⟨2, 1, 1, 6, 0, ""⟩, ⟨3, 1, 4, 8, 0, ""⟩] :
    Trace Float)).toOption.any (fun l => l.chart.linkPairs.any fun st =>
      decide (st.2.task.start < st.1.task.finish)) = true := by
  decide +kernel

end Layout

end SpanChart
