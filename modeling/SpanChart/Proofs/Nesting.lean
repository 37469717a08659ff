/-
  NESTING — a chart has as many levels as its trace is deep.

  How deep a trace may be is found out by walking its spans; the stack is used up later, by
  functions that go over a chart.  A chart is not the same tree: it has idle time in it, of which no
  span knows.  `levels_eq_nesting` says that this makes no difference.

  1. `ofSpanWithin_eq_ok_iff_levels_le` — the builder uses up exactly as many levels as the chart
     has that it builds, whatever the lineage.  Idle time is at the level of the children that it is
     around, and there always are some: without children there is none.

  2. `ShownAt.climbs` — a span whose block is so many steps below the root's is as many steps away
     from the root in its trace.

  3. `exists_shownAt_length` — wherever there is a block, there is one at the same level that is a
     span's.  So the deepest block of a chart says how deep its trace is.
-/
import SpanChart.Proofs.Levels
import SpanChart.Proofs.Portrayal

namespace SpanChart

variable {α : Type} [Scalar α]

/-! ## Levels that the builder uses up -/

namespace Chart

open Layout (bind_eq_ok_iff mapM_eq_ok_iff)
open Scalar (larger)

/-- How the parts of a group are come by where charts are at hand: every part is a task, or one of
    the charts; some part is one of the charts; and to have these parts it takes no other charts. -/
structure Assembles
    (assemble : (SpanId → Except Fault (Chart α)) → Except Fault (List (Chart α))) : Prop where
  part : ∀ {chart parts}, assemble chart = .ok parts →
    ∀ d ∈ parts, d.levels = 1 ∨ ∃ id, chart id = .ok d
  asked : ∀ {chart parts}, assemble chart = .ok parts → ∃ d ∈ parts, ∃ id, chart id = .ok d
  again : ∀ {chart parts}, assemble chart = .ok parts →
    ∀ {chart'}, (∀ id, ∀ d ∈ parts, chart id = .ok d → chart' id = .ok d) →
      assemble chart' = .ok parts

theorem assembles_mapM {ids : List SpanId} (hne : ids ≠ []) :
    Assembles fun chart : SpanId → Except Fault (Chart α) => ids.mapM chart where
  part {chart parts} h d hd := by
    obtain ⟨i, hi⟩ := List.getElem?_of_mem hd
    obtain ⟨id, -, hid⟩ := exists_left_of_forall₂ (mapM_eq_ok_iff.1 h) hi
    exact Or.inr ⟨id, hid⟩
  asked {chart parts} h := by
    cases mapM_eq_ok_iff.1 h with
    | nil => exact absurd rfl hne
    | cons hpart _ => exact ⟨_, List.mem_cons_self, _, hpart⟩
  again {chart parts} h chart' hsame := by
    have hparts := mapM_eq_ok_iff.1 h
    clear h hne
    rw [mapM_eq_ok_iff]
    induction hparts with
    | nil => exact .nil
    | cons hpart _ ih =>
      exact .cons (hsame _ _ List.mem_cons_self hpart)
        (ih fun id d hd => hsame id d (List.mem_cons_of_mem _ hd))

section Interleave

variable {register : Register α} {thread : UInt64} {finish since : α}
  {chart : SpanId → Except Fault (Chart α)} {id : SpanId} {ids : List SpanId}
  {parts : List (Chart α)}

theorem interleave_nil_eq_ok_iff : interleave register thread finish chart since [] = .ok parts ↔
    ∃ idle, Task.of? since (larger since finish) thread true = .ok idle ∧ [task idle] = parts := by
  rw [interleave, bind_eq_ok_iff]
  simp [pure, Except.pure]

theorem interleave_cons_eq_ok_iff :
    interleave register thread finish chart since (id :: ids) = .ok parts ↔
      ∃ child idle part rest, register[id]? = some child ∧
        Task.of? since (larger since child.start) thread true = .ok idle ∧
        chart child.id = .ok part ∧
        interleave register thread finish chart child.finish ids = .ok rest ∧
        task idle :: part :: rest = parts := by
  rw [interleave]
  cases register[id]? with
  | none => simp
  | some child => simp [bind_eq_ok_iff, pure, Except.pure]

theorem assembles_interleave (register : Register α) (thread : UInt64) (finish since : α)
    (hne : ids ≠ []) :
    Assembles fun chart => interleave register thread finish chart since ids where
  part {chart parts} h := by
    clear hne
    induction ids generalizing since parts with
    | nil =>
      obtain ⟨idle, -, rfl⟩ := interleave_nil_eq_ok_iff.1 h
      exact List.forall_mem_singleton.2 (Or.inl rfl)
    | cons id ids ih =>
      obtain ⟨child, idle, part, rest, -, -, hpart, hrest, rfl⟩ := interleave_cons_eq_ok_iff.1 h
      exact List.forall_mem_cons.2 ⟨Or.inl rfl, List.forall_mem_cons.2
        ⟨Or.inr ⟨child.id, hpart⟩, ih _ hrest⟩⟩
  -- the second part is the chart of the first child, after the idle time before it
  asked {chart parts} h := by
    obtain ⟨id, ids, rfl⟩ := List.exists_cons_of_ne_nil hne
    obtain ⟨child, idle, part, rest, -, -, hpart, -, rfl⟩ := interleave_cons_eq_ok_iff.1 h
    exact ⟨part, List.mem_cons_of_mem _ List.mem_cons_self, child.id, hpart⟩
  -- idle time is the same whoever makes the charts of the children
  again {chart parts} h chart' hsame := by
    clear hne
    induction ids generalizing since parts with
    | nil => exact interleave_nil_eq_ok_iff.2 (interleave_nil_eq_ok_iff.1 h)
    | cons id ids ih =>
      obtain ⟨child, idle, part, rest, hchild, hidle, hpart, hrest, rfl⟩ :=
        interleave_cons_eq_ok_iff.1 h
      have hpart' := hsame child.id part (List.mem_cons_of_mem _ List.mem_cons_self) hpart
      have hrest' := ih _ hrest fun id d hd =>
        hsame id d (List.mem_cons_of_mem _ (List.mem_cons_of_mem _ hd))
      exact interleave_cons_eq_ok_iff.2
        ⟨child, idle, part, rest, hchild, hidle, hpart', hrest', rfl⟩

end Interleave

section Build

variable {register : Register α} {children : Children}

/-- One step of building: it makes a task if anything, or a group of what the next steps make. -/
theorem ofSpanWithin_step (register : Register α) (children : Children) (id : SpanId) :
    (∃ attempt, (∀ c : Chart α, attempt = .ok c → c.levels = 1) ∧
      ∀ levels, ofSpanWithin register children (levels + 1) id = attempt) ∨
    ∃ flow assemble, Assembles assemble ∧ ∀ levels,
      ofSpanWithin register children (levels + 1) id =
        assemble (ofSpanWithin register children levels) >>= group? flow := by
  cases hspan : register[id]? with
  | none =>
    refine Or.inl ⟨_, fun c h => ?_, fun levels => ofSpanWithin_of_none hspan⟩
    cases h
  | some span =>
    by_cases hof : children.of id = []
    · refine Or.inl ⟨_, fun c h => ?_, fun levels => ofSpanWithin_of_alone hspan hof⟩
      cases ht : Task.of? span.start span.finish span.thread false with
      | error fault => rw [ht] at h; cases h
      | ok t => rw [ht] at h; cases h; rfl
    · cases hjoin : span.isJoin with
      | true =>
        exact Or.inr ⟨_, _, assembles_mapM hof, fun _ => ofSpanWithin_of_join hspan hof hjoin⟩
      | false =>
        exact Or.inr ⟨_, _, assembles_interleave register span.thread span.finish span.start hof,
          fun _ => ofSpanWithin_of_turns hspan hof hjoin⟩

/-- Where a chart is built there are enough levels for it, and as many as it has would do. -/
theorem levels_of_ofSpanWithin {levels : Nat} {id : SpanId} {c : Chart α}
    (h : ofSpanWithin register children levels id = .ok c) :
    c.levels ≤ levels ∧
      ∀ other, c.levels ≤ other → ofSpanWithin register children other id = .ok c := by
  induction levels generalizing id c with
  | zero => cases h
  | succ levels ih =>
    rcases ofSpanWithin_step register children id with
      ⟨attempt, hone, hstep⟩ | ⟨flow, assemble, hassemble, hstep⟩
    · rw [hstep] at h
      have hlevels := hone c h
      refine ⟨by omega, fun other hother => ?_⟩
      cases other with
      | zero => omega
      | succ other => rw [hstep, h]
    · rw [hstep] at h
      obtain ⟨parts, hparts, hgroup⟩ := bind_eq_ok_iff.1 h
      have hc : c.parts = parts := by
        cases parts with
        | nil => cases hgroup
        | cons first rest => cases hgroup; rfl
      constructor
      · -- one part is a chart that was asked for, so that there is a level for tasks as well
        obtain ⟨e, -, id', he⟩ := hassemble.asked hparts
        have hsome : 0 < levels := e.levels_pos.trans_le (ih he).1
        rw [levels_le_succ_iff, hc]
        intro d hd
        rcases hassemble.part hparts d hd with hone | ⟨id', hd'⟩
        · omega
        · exact (ih hd').1
      · intro other hother
        cases other with
        | zero => exact absurd hother (Nat.not_le.2 c.levels_pos)
        | succ other =>
          rw [levels_le_succ_iff, hc] at hother
          have hagain := hassemble.again hparts fun id' d hd hd' => (ih hd').2 other (hother d hd)
          rw [hstep, hagain]
          exact hgroup

/-- **A chart is built within as many levels as it has**, and within no fewer. -/
theorem ofSpanWithin_eq_ok_iff_levels_le {most : Nat} {id : SpanId} {c : Chart α}
    (h : ofSpanWithin register children most id = .ok c) {levels : Nat} :
    ofSpanWithin register children levels id = .ok c ↔ c.levels ≤ levels :=
  ⟨fun h' => (levels_of_ofSpanWithin h').1, (levels_of_ofSpanWithin h).2 levels⟩

end Build

end Chart

/-! ## Levels of spans and of blocks -/

namespace Family

omit [Scalar α] in
/-- Going down a family is going away from the root, a span at each step. -/
theorem ShownAt.climbs {trace : Trace α} (named : ∀ s ∈ trace, s.id ≠ noParent) {f g : Family α}
    {path : List Nat} (hg : f.ShownAt path g) (hf : f.ListedIn trace) {n : Nat}
    (climb : Climbs trace n f.head) : Climbs trace (path.length + n) g.head := by
  induction hg generalizing n with
  | here f => rwa [List.length_nil, Nat.zero_add]
  | @further s fs i e g path he _ ih =>
    cases hf with
    | node hs hheads hbranches =>
      have hlisted := hbranches e (List.mem_of_getElem? he)
      have hchild : e.head ∈ trace.childrenOf s :=
        hheads ▸ List.mem_map_of_mem (List.mem_of_getElem? he)
      obtain ⟨hmem, hparent⟩ := List.mem_filter.1 hchild
      have hparent : e.head.parent = s.id := beq_iff_eq.1 hparent
      have hstep : Climbs trace (n + 1) e.head :=
        .up hmem (hparent ▸ named s hs) hparent.symm climb
      have hbelow := ih hlisted hstep
      rwa [List.length_cons, Nat.add_assoc, Nat.add_comm 1]

omit [Scalar α] in
/-- From the root's family on, every step down is one span more on the way up. -/
theorem ShownAt.climbs_root {trace : Trace α} (named : ∀ s ∈ trace, s.id ≠ noParent)
    {f g : Family α} {path : List Nat} (hg : f.ShownAt path g) (hf : f.ListedIn trace)
    (hroot : f.head.parent = noParent) : Climbs trace (path.length + 1) g.head :=
  hg.climbs named hf (.root (hf.spans_subset _ f.head_mem_spans) hroot)

omit [Scalar α] in
/-- Where no span is repeated, each of them says where it is shown. -/
theorem exists_path {f : Family α} (hnodup : f.spans.Nodup) :
    ∃ path : Span α → List Nat, ∀ p g, f.ShownAt p g → path g.head = p := by
  have hshown : ∀ s ∈ f.spans, ∃ p g, f.ShownAt p g ∧ g.head = s := fun s hs => exists_shownAt hs
  choose! path fam hfam hhead using hshown
  refine ⟨path, fun p g hg => ?_⟩
  exact (hfam _ hg.head_mem).path_unique hnodup hg (hhead _ hg.head_mem)

/-- At every level that has a block there is a span's. -/
theorem exists_shownAt_length {f : Family α} {b d : Chart α} {path : List Nat} (hb : f.Drawn b)
    (hd : b.at? path = some d) : ∃ path' g, path'.length = path.length ∧ f.ShownAt path' g := by
  induction path generalizing f b with
  | nil => exact ⟨[], f, rfl, .here f⟩
  | cons j path ih =>
    obtain ⟨c, hc, hd⟩ := Option.bind_eq_some_iff.1 hd
    cases f with
    | node s fs =>
      rcases branch_of_part hb hc with ⟨i, e, -, he, hdrawn⟩ | hidle
      · obtain ⟨path', g, hlength, hg⟩ := ih hdrawn hd
        exact ⟨s.seat i :: path', g, congrArg Nat.succ hlength, .further he hg⟩
      · -- idle time has nothing below it, and is around children
        obtain ⟨t, rfl, -⟩ := Chart.isIdle_iff.1 hidle
        obtain rfl : path = [] := by
          cases path with
          | nil => rfl
          | cons k path => exact absurd hd (by simp [Chart.at?_cons, Chart.parts])
        cases fs with
        | nil =>
          rcases hb.cases with ⟨-, t', rfl, -⟩ | ⟨hne, -⟩ | ⟨hne, -⟩
          · exact absurd hc (by simp [Chart.parts])
          · exact absurd rfl hne
          · exact absurd rfl hne
        | cons e fs => exact ⟨[s.seat 0], e, rfl, .further rfl (.here e)⟩

variable {trace : Trace α} {f : Family α} {c : Chart α}

/-- A chart has a level for every span on the longest way up from a span of its family. -/
theorem isGreatest_levels (named : ∀ s ∈ trace, s.id ≠ noParent)
    (distinct : (trace.map Span.id).Nodup) (hf : f.ListedIn trace) (hc : f.Drawn c)
    (hroot : f.head.parent = noParent) (hperm : f.spans.Perm trace) :
    IsGreatest {d | ∃ s ∈ trace, Climbs trace d s} c.levels := by
  constructor
  · obtain ⟨path, b, hb, hdeepest⟩ := c.exists_deepest
    obtain ⟨path', g, hlength, hg⟩ := exists_shownAt_length hc hb
    refine ⟨g.head, hperm.mem_iff.1 hg.head_mem, ?_⟩
    rw [← hdeepest, ← hlength]
    exact hg.climbs_root named hf hroot
  · rintro d ⟨s, hs, climb⟩
    obtain ⟨path, g, hg, rfl⟩ := exists_shownAt (hperm.mem_iff.2 hs)
    obtain ⟨b, hb, -⟩ := at?_of_shownAt hc hg
    rw [climb.length_unique distinct (hg.climbs_root named hf hroot)]
    exact Chart.levels_le_iff.1 (Nat.le_refl c.levels) path b hb

end Family

/-! ## Layouts -/

namespace Layout

variable {trace : Trace α}

/-- The limit on nesting is one on building as well, whether it comes to a chart or not. -/
theorem ofSpan_eq_ofSpanWithin_nestingLimit {checked : Checked α} (h : checked.Describes trace) :
    Chart.ofSpan checked.register checked.children checked.root =
      Chart.ofSpanWithin checked.register checked.children nestingLimit checked.root := by
  obtain ⟨f, hf, hroot, -⟩ := Family.exists_family h
  obtain ⟨r, hroots, hid⟩ := h.root
  have hr : f.head ∈ trace.filter Span.isRoot :=
    List.mem_filter.2 ⟨hf.spans_subset _ f.head_mem_spans, isRoot_iff.2 hroot⟩
  rw [hroots, List.mem_singleton] at hr
  have hhead : f.head.id = checked.root := hr ▸ hid
  have hends := h.ends
  rw [Family.ofSpan_eq_chart? h hf hhead]
  rw [← hhead] at hends ⊢
  exact (Family.ofSpanWithin_eq_chart? h hf hends).symm

/-- What a layout has of a trace is the chart that is built of it, placed. -/
theorem exists_built {layout : Layout α} {checked : Checked α} (hcheck : check trace = .ok checked)
    (h : ofTrace trace = .ok layout) :
    ∃ built, Chart.ofSpan checked.register checked.children checked.root = .ok built ∧
      layout = ofChart built := by
  rw [ofTrace, hcheck] at h
  dsimp only at h
  cases hbuilt : Chart.ofSpan checked.register checked.children checked.root with
  | error fault => rw [hbuilt] at h; cases h
  | ok built =>
    rw [hbuilt] at h
    cases h
    exact ⟨built, rfl, rfl⟩

/-- **A chart has as many levels as its trace is deep**, and nothing that is done with it goes
    further down.  Of a trace that passes the checks a chart is built, or not, within the levels
    that a trace may have.  If it is laid out, the chart has as many levels as there are spans on
    the longest way up to the root, and the block of every span is at the level that this span has
    in the trace.  Building the chart, placing it and going over it once it is placed take as many
    levels as it has. -/
theorem levels_eq_nesting {checked : Checked α} (hcheck : check trace = .ok checked) :
    Chart.ofSpan checked.register checked.children checked.root =
        Chart.ofSpanWithin checked.register checked.children nestingLimit checked.root ∧
      ∀ layout, ofTrace trace = .ok layout →
        IsGreatest {d | ∃ s ∈ trace, Climbs trace d s} layout.chart.levels ∧
          layout.chart.levels ≤ nestingLimit ∧
          (∃ path : Span α → List Nat, ∀ s ∈ trace, Portrays trace layout.chart path s ∧
            ∀ d, Climbs trace d s ↔ d = (path s).length + 1) ∧
          ∃ built, layout = ofChart built ∧ ∀ levels,
            (Chart.ofSpanWithin checked.register checked.children levels checked.root = .ok built ↔
              layout.chart.levels ≤ levels) ∧
            (built.RunsWithin levels ↔ layout.chart.levels ≤ levels) ∧
            (layout.chart.RunsWithin levels ↔ layout.chart.levels ≤ levels) := by
  have hdescribes := describes_of_check hcheck
  refine ⟨ofSpan_eq_ofSpanWithin_nestingLimit hdescribes, fun layout h => ?_⟩
  obtain ⟨f, hlisted, hroot, hperm, hdrawn, -⟩ := exists_drawn h
  have hrooted := rooted_of_check ⟨checked, hcheck⟩
  have distinct := hrooted.distinct
  have hgreatest := Family.isGreatest_levels hrooted.named distinct hlisted hdrawn hroot hperm
  -- the limit is one of climbing, and the deepest span of a tree climbs in one number of steps
  refine ⟨hgreatest, ?_, ?_, ?_⟩
  · obtain ⟨s, hs, climb⟩ := hgreatest.1
    obtain ⟨d, hd, climb'⟩ := hrooted.climbs s hs
    rwa [climb.length_unique distinct climb']
  · obtain ⟨path, hpath⟩ := Family.exists_path (hperm.nodup_iff.2 (distinct.of_map _))
    refine ⟨path, fun s hs => ?_⟩
    obtain ⟨p, g, hg, rfl⟩ := Family.exists_shownAt (hperm.mem_iff.2 hs)
    have climb : Climbs trace ((path g.head).length + 1) g.head := by
      rw [hpath p g hg]
      exact hg.climbs_root hrooted.named hlisted hroot
    refine ⟨portrays_of_shownAt hpath hlisted hdrawn hg, fun d => ⟨fun climb' => ?_, ?_⟩⟩
    · exact climb'.length_unique distinct climb
    · rintro rfl
      exact climb
  · obtain ⟨built, hbuilt, rfl⟩ := exists_built hcheck h
    have hlevels : (ofChart built).chart.levels = built.levels := Chart.levels_place _ built
    refine ⟨built, rfl, fun levels => ⟨?_, ?_, Chart.runsWithin_iff⟩⟩
    · rw [hlevels]
      exact Chart.ofSpanWithin_eq_ok_iff_levels_le hbuilt
    · rw [hlevels]
      exact Chart.runsWithin_iff

/-- The two spans inside the join are as deep as it gets, and idle time is no deeper. -/
theorem levels_eq_nesting_joinInTurns :
    ∃ checked layout, check joinInTurns = .ok checked ∧ ofTrace joinInTurns = .ok layout ∧
      layout.chart.levels = 3 ∧ IsGreatest {d | ∃ s ∈ joinInTurns, Climbs joinInTurns d s} 3 := by
  obtain ⟨layout, h⟩ := exists_ofTrace_joinInTurns
  obtain ⟨checked, hcheck⟩ := exists_check_of_ofTrace h
  have hthree : (ofTrace joinInTurns).toOption.map (fun l => l.chart.levels) = some 3 := by
    decide +kernel
  rw [h] at hthree
  have hlevels : layout.chart.levels = 3 := Option.some.inj hthree
  have hgreatest := ((levels_eq_nesting hcheck).2 layout h).1
  rw [hlevels] at hgreatest
  exact ⟨checked, layout, hcheck, h, hlevels, hgreatest⟩

end Layout

end SpanChart
