/-
  IDLE TIME — what the idle tasks of a sequence add up to.

  A sequence has idle time before each of its children and after the last.  It is put where the
  time between two children would be, from the end of the one to the start of the next, and has no
  length where there is no such time because the two overlap.  Over the rationals, where it never
  fails, all of it can be written down beforehand (`idleAround`), and the parts of the sequence are
  woven from it and the charts of the children (`interleave_eq_weave`).

  Going on from one part to the next, an idle task leads to the start of the next child or beyond,
  and the child from its start to its end.  So the lengths of the parts telescope: together they
  come to the length of the whole, and more by what the idle tasks did not go back.  Nothing is left
  over exactly if none of them had to go back, which is to say that the children are in order, do
  not overlap and stay within the whole (`Flush`).  Then the parts tile it (`Tiles`).
-/
import Mathlib
import SpanChart.Proofs.Acceptance
import SpanChart.Proofs.Axes
import SpanChart.Proofs.Charting

namespace SpanChart.Chart

open Scalar (larger)

/-! ## Weaving -/

/-- The members of two lists by turns, beginning with the first. -/
def weave {β : Type} : List β → List β → List β
  | b :: bs, c :: cs => b :: c :: weave bs cs
  | bs, [] => bs
  | [], cs => cs

/-- An idle task that is not placed yet.  Over the rationals there is one from any time on. -/
def idleTask (thread : UInt64) (since next : Rat) : Task Rat :=
  ⟨since, larger since next, thread, true, Point.origin,
    Scalar.le_larger_iff.2 (Scalar.isNumber_rat since)⟩

/-- The idle tasks around spans that take turns from the time `since` on. -/
def idleAround (thread : UInt64) (finish : Rat) : Rat → List (Span Rat) → List (Task Rat)
  | since, [] => [idleTask thread since finish]
  | since, c :: cs => idleTask thread since c.start :: idleAround thread finish c.finish cs

section Idle

variable {thread : UInt64} {since finish next : Rat} {c : Span Rat} {cs : List (Span Rat)}

theorem length_idleAround : (idleAround thread finish since cs).length = cs.length + 1 := by
  induction cs generalizing since with
  | nil => rfl
  | cons c cs ih => exact congrArg (· + 1) ih

/-- Every idle task is one of those that lead from a time to another. -/
theorem exists_of_mem_idleAround {t : Task Rat} (h : t ∈ idleAround thread finish since cs) :
    ∃ since next, t = idleTask thread since next := by
  induction cs generalizing since with
  | nil => exact ⟨since, finish, List.mem_singleton.1 h⟩
  | cons c cs ih =>
    rcases List.mem_cons.1 h with rfl | h
    · exact ⟨since, c.start, rfl⟩
    · exact ih h

/-- **The parts of a sequence** are woven from idle time and the charts of its children. -/
theorem interleave_eq_weave {register : Register Rat} {chart : SpanId → Except Fault (Chart Rat)}
    {ids : List SpanId} (h : ids.map (register[·]?) = cs.map some) :
    interleave register thread finish chart since ids =
      (cs.mapM fun c => chart c.id) >>= fun parts =>
        .ok (weave ((idleAround thread finish since cs).map task) parts) := by
  induction cs generalizing since ids with
  | nil =>
    obtain rfl := List.map_eq_nil_iff.1 h
    rw [interleave, Task.of?_of_le (Scalar.le_larger_iff.2 (Scalar.isNumber_rat since))]
    rfl
  | cons c cs ih =>
    obtain ⟨id, ids, rfl, hc, hcs⟩ := List.map_eq_cons_iff.1 h
    rw [interleave, hc, List.mapM_cons]
    dsimp only
    rw [Task.of?_of_le (Scalar.le_larger_iff.2 (Scalar.isNumber_rat since)), ih hcs]
    show (chart c.id >>= fun part => _) = _
    -- the same faults in the same order: first that of this child, then that of the rest
    cases chart c.id with
    | error fault => rfl
    | ok part =>
      show ((cs.mapM fun c => chart c.id) >>= _) >>= _ = ((cs.mapM fun c => chart c.id) >>= _) >>= _
      cases (cs.mapM fun c => chart c.id) <;> rfl

/-! ## Accounting -/

/-- Nothing is left over between the time `since` and the end: spans taking turns all start no
    sooner than the one before ended, and the last one ends no later than that. -/
def Flush (finish : Rat) : Rat → List (Span Rat) → Prop
  | since, [] => since ≤ finish
  | since, c :: cs => since ≤ c.start ∧ Flush finish c.finish cs

theorem flush_iff (hne : cs ≠ []) :
    Flush finish since cs ↔ since ≤ (cs.head hne).start ∧
      (cs.IsChain fun a b => a.finish ≤ b.start) ∧ (cs.getLast hne).finish ≤ finish := by
  induction cs generalizing since with
  | nil => exact absurd rfl hne
  | cons c cs ih =>
    rw [Flush, List.head_cons]
    cases cs with
    | nil => simp [Flush]
    | cons d cs =>
      rw [ih (List.cons_ne_nil d cs), List.isChain_cons_cons, List.head_cons,
        List.getLast_cons (List.cons_ne_nil d cs), and_assoc]

/-- The time that tasks and spans take together. -/
def taken (ts : List (Task Rat)) (cs : List (Span Rat)) : Rat :=
  (ts.map fun t => t.extent.width).sum + (cs.map fun c => c.finish - c.start).sum

/-- An idle task leads at least to the next time, and exactly there if that lies ahead. -/
theorem width_idleTask (thread : UInt64) (since next : Rat) :
    next - since ≤ (idleTask thread since next).extent.width ∧
      ((idleTask thread since next).extent.width = next - since ↔ since ≤ next) := by
  have hwidth : (idleTask thread since next).extent.width = max since next - since :=
    congrArg (· - since) (larger_eq_max since next)
  rw [hwidth, sub_left_inj, max_eq_right_iff]
  exact ⟨sub_le_sub_right (le_max_right since next) since, Iff.rfl⟩

/-- **The parts take as long as the whole**, and longer unless they are flush. -/
theorem taken_idleAround (thread : UInt64) (since finish : Rat) (cs : List (Span Rat)) :
    finish - since ≤ taken (idleAround thread finish since cs) cs ∧
      (taken (idleAround thread finish since cs) cs = finish - since ↔ Flush finish since cs) := by
  induction cs generalizing since with
  | nil =>
    have htaken : taken (idleAround thread finish since []) [] =
        (idleTask thread since finish).extent.width := by
      simp [taken, idleAround]
    rw [htaken]
    exact width_idleTask thread since finish
  | cons c cs ih =>
    have htaken : taken (idleAround thread finish since (c :: cs)) (c :: cs) =
        (idleTask thread since c.start).extent.width + (c.finish - c.start) +
          taken (idleAround thread finish c.finish cs) cs := by
      simp only [taken, idleAround, List.map_cons, List.sum_cons]
      ring
    obtain ⟨hidle, hflush⟩ := width_idleTask thread since c.start
    obtain ⟨hrest, hrestFlush⟩ := ih c.finish
    rw [htaken, Flush, ← hflush, ← hrestFlush]
    constructor
    · linarith
    · constructor
      · -- nothing is gained elsewhere by what is left over here
        intro h
        constructor
        · linarith
        · linarith
      · rintro ⟨hexact, hrestExact⟩
        linarith

/-! ## Tiling -/

/-- The intervals are in order, do not overlap, and leave no hole between the first time and the
    last. -/
structure Tiles (low high : Rat) (intervals : List (Rat × Rat)) : Prop where
  ordered : low ≤ high
  inside : ∀ i ∈ intervals, low ≤ i.1 ∧ i.1 ≤ i.2 ∧ i.2 ≤ high
  inOrder : intervals.Pairwise fun i j => i.2 ≤ j.1
  covered : ∀ t, low ≤ t → t ≤ high → ∃ i ∈ intervals, i.1 ≤ t ∧ t ≤ i.2

theorem tiles_single {low high : Rat} (h : low ≤ high) : Tiles low high [(low, high)] where
  ordered := h
  inside := by simpa using h
  inOrder := List.pairwise_singleton _ _
  covered := fun t hlow hhigh => ⟨_, List.mem_singleton_self _, hlow, hhigh⟩

theorem Tiles.cons {low mid high : Rat} {intervals : List (Rat × Rat)}
    (h : Tiles mid high intervals) (hlow : low ≤ mid) :
    Tiles low high ((low, mid) :: intervals) where
  ordered := hlow.trans h.ordered
  inside := by
    refine List.forall_mem_cons.2 ⟨⟨le_refl low, hlow, h.ordered⟩, fun i hi => ?_⟩
    obtain ⟨hstart, hforwards, hfinish⟩ := h.inside i hi
    exact ⟨hlow.trans hstart, hforwards, hfinish⟩
  inOrder := List.pairwise_cons.2 ⟨fun i hi => (h.inside i hi).1, h.inOrder⟩
  covered := by
    intro t hstart hfinish
    rcases le_total t mid with hmid | hmid
    · exact ⟨_, List.mem_cons_self, hstart, hmid⟩
    · obtain ⟨i, hi, ht⟩ := h.covered t hmid hfinish
      exact ⟨i, List.mem_cons_of_mem _ hi, ht⟩

/-- **Flush parts tile the whole.** -/
theorem tiles_idleAround (hflush : Flush finish since cs) (hcs : ∀ c ∈ cs, c.start ≤ c.finish) :
    Tiles since finish (weave ((idleAround thread finish since cs).map fun t => (t.start, t.finish))
      (cs.map fun c => (c.start, c.finish))) := by
  induction cs generalizing since with
  | nil =>
    show Tiles since finish [(since, larger since finish)]
    rw [larger_eq_max, max_eq_right hflush]
    exact tiles_single hflush
  | cons c cs ih =>
    obtain ⟨hstart, hrest⟩ := hflush
    obtain ⟨hc, hcs⟩ := List.forall_mem_cons.1 hcs
    show Tiles since finish ((since, larger since c.start) :: (c.start, c.finish) :: _)
    rw [larger_eq_max, max_eq_right hstart]
    exact ((ih hrest hcs).cons hc).cons hstart

end Idle

/-! ## Sequences -/

/-- A group is made of parts, if there are any. -/
theorem group?_eq_ok_iff {α : Type} [Scalar α] {flow : Flow} {parts : List (Chart α)}
    {chart : Chart α} :
    group? flow parts = .ok chart ↔
      ∃ first rest, parts = first :: rest ∧ chart = .group flow Point.origin first rest := by
  cases parts with
  | nil => simp [group?]
  | cons first rest =>
    constructor
    · intro h
      exact ⟨first, rest, rfl, (Except.ok.inj h).symm⟩
    · rintro ⟨_, _, h, rfl⟩
      cases h
      rfl

section Sequence

variable {register : Register Rat} {children : Children} {id : SpanId} {p : Span Rat}
  {cs : List (Span Rat)}

/-- A sequence is charted exactly if its children are, and this is its chart then. -/
theorem ofSpanWithin_eq_ok_iff (hp : register[id]? = some p) (hturn : p.isJoin = false)
    (hne : cs ≠ []) (hchildren : (children.of id).map (register[·]?) = cs.map some) {levels : Nat}
    {chart : Chart Rat} :
    ofSpanWithin register children (levels + 1) id = .ok chart ↔ ∃ parts first rest,
      List.Forall₂ (fun c part => ofSpanWithin register children levels c.id = .ok part) cs parts ∧
      weave ((idleAround p.thread p.finish p.start cs).map task) parts = first :: rest ∧
      chart = .group .sequential Point.origin first rest := by
  have hof : children.of id ≠ [] := by
    rintro hof
    rw [hof] at hchildren
    exact hne (List.map_eq_nil_iff.1 hchildren.symm)
  rw [ofSpanWithin_of_turns hp hof hturn, interleave_eq_weave hchildren, Layout.bind_eq_ok_iff]
  constructor
  · rintro ⟨woven, hwoven, hchart⟩
    obtain ⟨parts, hparts, h⟩ := Layout.bind_eq_ok_iff.1 hwoven
    cases h
    obtain ⟨first, rest, hweave, rfl⟩ := group?_eq_ok_iff.1 hchart
    exact ⟨parts, first, rest, Layout.mapM_eq_ok_iff.1 hparts, hweave, rfl⟩
  · rintro ⟨parts, first, rest, hparts, hweave, rfl⟩
    rw [Layout.mapM_eq_ok_iff.2 hparts]
    exact ⟨_, rfl, group?_eq_ok_iff.2 ⟨first, rest, hweave, rfl⟩⟩

/-- **A sequence accounts for all of its time.**  It is charted exactly if all of its children are,
    and then its parts are their charts and idle tasks by turns, one more of these.  The idle tasks
    have the thread of the sequence and do not run backwards.  Together with the children they take
    at least as long as the sequence itself, and just as long exactly if the children stay within it
    and follow one another without overlapping.  Then the parts tile it. -/
theorem ofSpanWithin_sequence (hp : register[id]? = some p) (hturn : p.isJoin = false)
    (hne : cs ≠ []) (hchildren : (children.of id).map (register[·]?) = cs.map some)
    (hcs : ∀ c ∈ cs, c.start ≤ c.finish) :
    ∃ gaps : List (Task Rat), gaps.length = cs.length + 1 ∧
      (∀ levels chart, ofSpanWithin register children (levels + 1) id = .ok chart ↔
        ∃ parts first rest,
          List.Forall₂ (fun c part => ofSpanWithin register children levels c.id = .ok part)
            cs parts ∧
          weave (gaps.map task) parts = first :: rest ∧
          chart = .group .sequential Point.origin first rest) ∧
      (∀ g ∈ gaps, g.idle = true ∧ g.thread = p.thread ∧ 0 ≤ g.extent.width) ∧
      p.finish - p.start ≤ taken gaps cs ∧
      (taken gaps cs = p.finish - p.start ↔ p.start ≤ (cs.head hne).start ∧
        (cs.IsChain fun a b => a.finish ≤ b.start) ∧ (cs.getLast hne).finish ≤ p.finish) ∧
      (taken gaps cs = p.finish - p.start → Tiles p.start p.finish
        (weave (gaps.map fun g => (g.start, g.finish)) (cs.map fun c => (c.start, c.finish)))) := by
  obtain ⟨hlonger, hflush⟩ := taken_idleAround p.thread p.start p.finish cs
  refine ⟨idleAround p.thread p.finish p.start cs, length_idleAround,
    fun levels chart => ofSpanWithin_eq_ok_iff hp hturn hne hchildren, fun g hg => ?_, hlonger,
    hflush.trans (flush_iff hne), fun h => tiles_idleAround (hflush.1 h) hcs⟩
  obtain ⟨since, next, rfl⟩ := exists_of_mem_idleAround hg
  exact ⟨rfl, rfl, sub_nonneg.2 (idleTask p.thread since next).ordered⟩

end Sequence

/-- A run of which two parts overlap. -/
def overlappingTurns : Trace Rat :=
  [⟨1, 0, 0, 10, 7, ""⟩, ⟨2, 1, 2, 5, 7, ""⟩, ⟨3, 1, 4, 8, 7, ""⟩]

theorem ofSpanWithin_overlappingTurns :
    (Register.ofTrace overlappingTurns)[(1 : SpanId)]? = some ⟨1, 0, 0, 10, 7, ""⟩ ∧
      ((Children.ofTrace overlappingTurns).of 1).map ((Register.ofTrace overlappingTurns)[·]?) =
        overlappingTurns.tail.map some ∧
      (∀ c ∈ overlappingTurns.tail, c.start ≤ c.finish) ∧
      ∃ gaps : List (Task Rat), gaps.length = 3 ∧
        (∀ g ∈ gaps, g.idle = true ∧ g.thread = 7 ∧ 0 ≤ g.extent.width) ∧
        10 - 0 ≤ taken gaps overlappingTurns.tail ∧
        taken gaps overlappingTurns.tail ≠ 10 - 0 := by
  have hp : (Register.ofTrace overlappingTurns)[(1 : SpanId)]? = some ⟨1, 0, 0, 10, 7, ""⟩ := by
    decide +kernel
  have hchildren : ((Children.ofTrace overlappingTurns).of 1).map
      ((Register.ofTrace overlappingTurns)[·]?) = overlappingTurns.tail.map some := by
    decide +kernel
  have hcs : ∀ c ∈ overlappingTurns.tail, c.start ≤ c.finish := by decide
  obtain ⟨gaps, hlength, -, hidle, hlonger, hflush, -⟩ :=
    ofSpanWithin_sequence hp (by decide) (by decide) hchildren hcs
  refine ⟨hp, hchildren, hcs, gaps, hlength, hidle, hlonger, fun h => ?_⟩
  exact absurd (hflush.1 h).2.1 (by decide)

end SpanChart.Chart
