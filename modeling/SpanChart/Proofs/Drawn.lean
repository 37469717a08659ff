/-
  DRAWN — what the chart of a family looks like once it is placed.

  A family that is charted at all gives a chart of one of three forms, and `Drawn.cases` says
  which: a span without children is a task of its own; a join is a parallel group of the charts of
  its branches; any other span is a sequence, in which the charts of the branches take turns with
  idle time (`Turns`).  Placing moves boxes and nothing else, so all of this is said of the placed
  chart, the one that a layout has.

  Most of what there is to know of a group comes of a count: of its parts, those that are not idle
  are the drawn branches, one for one, and the idle ones are as many as there is time around the
  branches (`Drawn.parts`).  Of all the tasks together, none has a time that is not a span's
  (`Drawn.times`).
-/
import SpanChart.Proofs.Families
import SpanChart.Proofs.Placed

namespace SpanChart

variable {α : Type} [Scalar α]

open Scalar (larger)

/-! ## Lists side by side -/

section Forall₂

omit [Scalar α]

variable {β γ : Type} {R : β → γ → Prop} {xs : List β} {ys : List γ}

theorem exists_right_of_forall₂ (h : List.Forall₂ R xs ys) {i : Nat} {x : β}
    (hx : xs[i]? = some x) : ∃ y, ys[i]? = some y ∧ R x y := by
  induction h generalizing i with
  | nil => exact absurd hx (by simp)
  | @cons a b xs ys hab h ih =>
    cases i with
    | zero =>
      obtain rfl := Option.some.inj hx
      exact ⟨b, rfl, hab⟩
    | succ i => exact ih hx

theorem exists_left_of_forall₂ (h : List.Forall₂ R xs ys) {i : Nat} {y : γ}
    (hy : ys[i]? = some y) : ∃ x, xs[i]? = some x ∧ R x y :=
  exists_right_of_forall₂ h.flip hy

/-- What agrees on related elements is the same list on both sides. -/
theorem map_eq_of_forall₂ {δ : Type} {g : β → δ} {k : γ → δ} (h : List.Forall₂ R xs ys)
    (hgk : ∀ x ∈ xs, ∀ y, R x y → g x = k y) : xs.map g = ys.map k := by
  induction h with
  | nil => rfl
  | @cons a b xs ys hab h ih =>
    rw [List.map_cons, List.map_cons, hgk a List.mem_cons_self b hab,
      ih fun x hx => hgk x (List.mem_cons_of_mem a hx)]

end Forall₂

/-! ## Idle time and work -/

/-- The task is idle time on a thread from `since` to `next`, or none if that has passed already. -/
structure Task.IdleBetween (t : Task α) (thread : UInt64) (since next : α) : Prop where
  start : t.start = since
  finish : t.finish = larger since next
  thread : t.thread = thread
  idle : t.idle = true

/-- What a task says about the run: from when to when, and on which thread. -/
def Task.work (t : Task α) : α × α × UInt64 := (t.start, t.finish, t.thread)

omit [Scalar α] in
/-- What a span says about the run: from when to when, and on which thread. -/
def Span.work (s : Span α) : α × α × UInt64 := (s.start, s.finish, s.thread)

/-- Whether a chart is nothing but idle time. -/
def Chart.isIdle : Chart α → Bool
  | .task t => t.idle
  | .group .. => false

theorem Chart.isIdle_iff {c : Chart α} : c.isIdle = true ↔ ∃ t, c = .task t ∧ t.idle = true := by
  cases c with
  | task t => simp [isIdle]
  | group flow corner first rest => simp [isIdle]

/-- A task that could be made is the one that was asked for. -/
theorem Task.of?_eq_ok {start finish : α} {thread : UInt64} {idle : Bool} {t : Task α}
    (h : Task.of? start finish thread idle = .ok t) :
    t.start = start ∧ t.finish = finish ∧ t.thread = thread ∧ t.idle = idle := by
  unfold Task.of? at h
  split at h
  · cases h
    exact ⟨rfl, rfl, rfl, rfl⟩
  · cases h

/-- Where the block of a span's child stands among the parts of its own. -/
def Span.seat (s : Span α) (i : Nat) : Nat := if s.isJoin then i else 2 * i + 1

omit [Scalar α] in
theorem Span.seat_injective (s : Span α) : Function.Injective s.seat := by
  intro i j hij
  unfold Span.seat at hij
  split at hij <;> omega

namespace Family

/-- The chart is that of the family, in some place. -/
def Drawn (f : Family α) (b : Chart α) : Prop := ∃ c q, f.chart? = .ok c ∧ b = c.place q

/-- The charts are those of families that took turns from the time `since` on: idle time up to the
    start of each family, then the family, and idle time up to `finish` at the end. -/
inductive Turns (thread : UInt64) (finish : α) : α → List (Family α) → List (Chart α) → Prop
  | last {since : α} {t : Task α} (ht : t.IdleBetween thread since finish) :
      Turns thread finish since [] [.task t]
  | turn {since : α} {f : Family α} {fs : List (Family α)} {t : Task α} {b : Chart α}
      {bs : List (Chart α)} (ht : t.IdleBetween thread since f.head.start) (hb : f.Drawn b)
      (hrest : Turns thread finish f.head.finish fs bs) :
      Turns thread finish since (f :: fs) (.task t :: b :: bs)

/-! ## The three forms -/

theorem charts?_drawn {flow : Flow} {p : Point α} {whole : Extent α} {cursor : α}
    {fs : List (Family α)} {parts : List (Chart α)} (h : charts? fs = .ok parts) :
    List.Forall₂ Drawn fs (Chart.placeRow flow p whole cursor parts) := by
  induction fs generalizing parts cursor with
  | nil =>
    cases h
    exact List.Forall₂.nil
  | cons f fs ih =>
    obtain ⟨part, hpart, h⟩ := Layout.bind_eq_ok_iff.1 h
    obtain ⟨parts, hparts, h⟩ := Layout.bind_eq_ok_iff.1 h
    cases h
    exact List.Forall₂.cons ⟨part, _, hpart, rfl⟩ (ih hparts)

theorem turns?_drawn {flow : Flow} {p : Point α} {whole : Extent α} {cursor : α}
    {thread : UInt64} {finish since : α} {fs : List (Family α)} {parts : List (Chart α)}
    (h : turns? thread finish since fs = .ok parts) :
    Turns thread finish since fs (Chart.placeRow flow p whole cursor parts) := by
  induction fs generalizing since parts cursor with
  | nil =>
    obtain ⟨t, ht, h⟩ := Layout.bind_eq_ok_iff.1 h
    cases h
    obtain ⟨hstart, hfinish, hthread, hidle⟩ := Task.of?_eq_ok ht
    exact .last ⟨hstart, hfinish, hthread, hidle⟩
  | cons f fs ih =>
    obtain ⟨t, ht, h⟩ := Layout.bind_eq_ok_iff.1 h
    obtain ⟨part, hpart, h⟩ := Layout.bind_eq_ok_iff.1 h
    obtain ⟨parts, hparts, h⟩ := Layout.bind_eq_ok_iff.1 h
    cases h
    obtain ⟨hstart, hfinish, hthread, hidle⟩ := Task.of?_eq_ok ht
    exact .turn ⟨hstart, hfinish, hthread, hidle⟩ ⟨part, _, hpart, rfl⟩ (ih hparts)

/-- A group is made of its parts, placed or not. -/
theorem place_of_group? {flow : Flow} {parts : List (Chart α)} {c : Chart α} (q : Point α)
    (h : Chart.group? flow parts = .ok c) :
    ∃ first rest cursor, c.place q = .group flow q first rest ∧
      first :: rest = Chart.placeRow flow q c.extent cursor parts := by
  cases parts with
  | nil => cases h
  | cons first rest =>
    cases h
    exact ⟨_, _, _, Chart.place_group q flow Point.origin first rest, rfl⟩

/-- **The three forms** that a drawn family has. -/
theorem Drawn.cases {s : Span α} {fs : List (Family α)} {b : Chart α}
    (h : (node s fs).Drawn b) :
    (fs = [] ∧ ∃ t, b = .task t ∧ t.work = s.work ∧ t.idle = false) ∨
    (fs ≠ [] ∧ s.isJoin = true ∧ ∃ corner first rest,
      b = .group .parallel corner first rest ∧ List.Forall₂ Drawn fs (first :: rest)) ∨
    (fs ≠ [] ∧ s.isJoin = false ∧ ∃ corner first rest,
      b = .group .sequential corner first rest ∧
        Turns s.thread s.finish s.start fs (first :: rest)) := by
  -- placing changes corners, and keeps which of the forms a chart has
  obtain ⟨c, q, hc, rfl⟩ := h
  cases fs with
  | nil =>
    rw [chart?] at hc
    cases ht : Task.of? s.start s.finish s.thread false with
    | error fault => rw [ht] at hc; cases hc
    | ok t =>
      rw [ht] at hc
      cases hc
      obtain ⟨hstart, hfinish, hthread, hidle⟩ := Task.of?_eq_ok ht
      refine Or.inl ⟨rfl, _, Chart.place_task q t, ?_, hidle⟩
      show (t.start, t.finish, t.thread) = s.work
      rw [hstart, hfinish, hthread]
      rfl
  | cons f fs =>
    rw [chart?] at hc
    cases hjoin : s.isJoin with
    | true =>
      rw [if_pos hjoin] at hc
      obtain ⟨parts, hparts, hc⟩ := Layout.bind_eq_ok_iff.1 hc
      obtain ⟨first, rest, cursor, hplace, hrow⟩ := place_of_group? q hc
      refine Or.inr (Or.inl ⟨List.cons_ne_nil f fs, rfl, q, first, rest, hplace, ?_⟩)
      rw [hrow]
      exact charts?_drawn hparts
    | false =>
      rw [if_neg (by rw [hjoin]; exact Bool.false_ne_true)] at hc
      obtain ⟨parts, hparts, hc⟩ := Layout.bind_eq_ok_iff.1 hc
      obtain ⟨first, rest, cursor, hplace, hrow⟩ := place_of_group? q hc
      refine Or.inr (Or.inr ⟨List.cons_ne_nil f fs, rfl, q, first, rest, hplace, ?_⟩)
      rw [hrow]
      exact turns?_drawn hparts

/-- What is drawn of a family is not idle. -/
theorem Drawn.isIdle {f : Family α} {b : Chart α} (h : f.Drawn b) : b.isIdle = false := by
  cases f with
  | node s fs =>
    rcases h.cases with ⟨-, t, rfl, -, hidle⟩ | ⟨-, -, _, _, _, rfl, -⟩ | ⟨-, -, _, _, _, rfl, -⟩
    · exact hidle
    · rfl
    · rfl

/-! ## The parts of a sequence -/

namespace Turns

variable {thread : UInt64} {finish since : α} {fs : List (Family α)} {bs : List (Chart α)}

/-- Idle time comes before each family and after the last. -/
theorem length_eq (h : Turns thread finish since fs bs) : bs.length = 2 * fs.length + 1 := by
  induction h with
  | last ht => rfl
  | turn ht hb hrest ih =>
    simp only [List.length_cons]
    omega

/-- The families are at the odd positions. -/
theorem getElem?_odd (h : Turns thread finish since fs bs) {i : Nat} {f : Family α}
    (hf : fs[i]? = some f) : ∃ b, bs[2 * i + 1]? = some b ∧ f.Drawn b := by
  induction h generalizing i with
  | last ht => exact absurd hf (by simp)
  | @turn since g gs t b bs ht hb hrest ih =>
    cases i with
    | zero =>
      obtain rfl := Option.some.inj hf
      exact ⟨b, rfl, hb⟩
    | succ i => exact ih hf

/-- Idle time is at the even positions. -/
theorem getElem?_even (h : Turns thread finish since fs bs) {i : Nat} (hi : i ≤ fs.length) :
    ∃ t, bs[2 * i]? = some (.task t) ∧ t.idle = true := by
  induction h generalizing i with
  | @last since t ht =>
    obtain rfl : i = 0 := Nat.le_zero.1 hi
    exact ⟨t, rfl, ht.idle⟩
  | @turn since g gs t b bs ht hb hrest ih =>
    cases i with
    | zero => exact ⟨t, rfl, ht.idle⟩
    | succ i => exact ih (Nat.le_of_succ_le_succ hi)

/-- Of the parts those that are not idle are the families, and there is one idle part more. -/
theorem parts (h : Turns thread finish since fs bs) :
    List.Forall₂ Drawn fs (bs.filter fun b => !b.isIdle) ∧
      bs.countP Chart.isIdle = fs.length + 1 := by
  induction h with
  | @last since t ht =>
    have hidle : (Chart.task t).isIdle = true := ht.idle
    simp [hidle]
  | @turn since g gs t b bs ht hb hrest ih =>
    have hidle : (Chart.task t).isIdle = true := ht.idle
    have hwork : b.isIdle = false := hb.isIdle
    obtain ⟨hdrawn, hcount⟩ := ih
    constructor
    · simp only [List.filter_cons, hidle, hwork]
      exact List.Forall₂.cons hb hdrawn
    · simp [hidle, hwork, hcount]

end Turns

/-- **The parts of a group.**  Those that are not idle are the drawn branches, in order; those that
    are come one more than the branches in a sequence, and not at all in a join. -/
theorem Drawn.parts {s : Span α} {fs : List (Family α)} {b : Chart α} (h : (node s fs).Drawn b)
    (hfs : fs ≠ []) :
    ∃ flow corner first rest, b = .group flow corner first rest ∧
      List.Forall₂ Drawn fs ((first :: rest).filter fun b => !b.isIdle) ∧
      (first :: rest).countP Chart.isIdle = if s.isJoin then 0 else fs.length + 1 := by
  rcases h.cases with ⟨hnil, -⟩ | ⟨-, hjoin, corner, first, rest, rfl, hparts⟩ |
    ⟨-, hjoin, corner, first, rest, rfl, hturns⟩
  · exact absurd hnil hfs
  · have hwork : ∀ d ∈ first :: rest, d.isIdle = false := by
      intro d hd
      obtain ⟨i, hi⟩ := List.getElem?_of_mem hd
      obtain ⟨f, -, hf⟩ := exists_left_of_forall₂ hparts hi
      exact hf.isIdle
    refine ⟨_, _, _, _, rfl, ?_, ?_⟩
    · rwa [List.filter_eq_self.2 fun d hd => by rw [hwork d hd]; rfl]
    · rw [if_pos hjoin, List.countP_eq_zero]
      exact fun d hd => Bool.eq_false_iff.1 (hwork d hd)
  · obtain ⟨hdrawn, hcount⟩ := hturns.parts
    exact ⟨_, _, _, _, rfl, hdrawn, by rw [hcount, hjoin]; rfl⟩

/-! ## Parts by position -/

/-- Every branch has its part. -/
theorem part_of_branch {s : Span α} {fs : List (Family α)} {b : Chart α} (hb : (node s fs).Drawn b)
    {i : Nat} {g : Family α} (hg : fs[i]? = some g) :
    ∃ d, b.parts[s.seat i]? = some d ∧ g.Drawn d := by
  rcases hb.cases with ⟨rfl, -⟩ | ⟨-, hjoin, corner, first, rest, rfl, hparts⟩ |
    ⟨-, hjoin, corner, first, rest, rfl, hturns⟩
  · exact absurd hg (by simp)
  · rw [Span.seat, if_pos hjoin]
    exact exists_right_of_forall₂ hparts hg
  · rw [Span.seat, if_neg (Bool.eq_false_iff.1 hjoin)]
    exact hturns.getElem?_odd hg

/-- Every part is a branch's, or idle. -/
theorem branch_of_part {s : Span α} {fs : List (Family α)} {b : Chart α} (hb : (node s fs).Drawn b)
    {j : Nat} {d : Chart α} (hd : b.parts[j]? = some d) :
    (∃ i g, j = s.seat i ∧ fs[i]? = some g ∧ g.Drawn d) ∨ d.isIdle = true := by
  rcases hb.cases with ⟨-, t, rfl, -⟩ | ⟨-, hjoin, corner, first, rest, rfl, hparts⟩ |
    ⟨-, hjoin, corner, first, rest, rfl, hturns⟩
  · exact absurd hd (by simp [Chart.parts])
  · obtain ⟨g, hg, hdrawn⟩ := exists_left_of_forall₂ hparts hd
    refine Or.inl ⟨j, g, ?_, hg, hdrawn⟩
    rw [Span.seat, if_pos hjoin]
  · have hlt : j < 2 * fs.length + 1 := by
      rw [← hturns.length_eq]
      exact (List.getElem?_eq_some_iff.1 hd).1
    have hd : (first :: rest)[j]? = some d := hd
    -- in a sequence the even seats are idle and the odd ones are those of branches
    rcases Nat.even_or_odd' j with ⟨i, rfl | rfl⟩
    · obtain ⟨t, ht, hidle⟩ := hturns.getElem?_even (i := i) (by omega)
      obtain rfl : Chart.task t = d := Option.some.inj (ht.symm.trans hd)
      exact Or.inr hidle
    · have hi : i < fs.length := by omega
      obtain ⟨e, he, hdrawn⟩ := hturns.getElem?_odd (List.getElem?_eq_getElem hi)
      obtain rfl : e = d := Option.some.inj (he.symm.trans hd)
      refine Or.inl ⟨i, fs[i], ?_, List.getElem?_eq_getElem hi, hdrawn⟩
      rw [Span.seat, if_neg (Bool.eq_false_iff.1 hjoin)]

/-! ## The times of tasks -/

/-- Tasks that are idle end at a time of their own or of one of the families. -/
theorem Turns.times {P : α → Prop} {thread : UInt64} {finish since : α}
    {fs : List (Family α)} {bs : List (Chart α)} (h : Turns thread finish since fs bs)
    (hsince : P since) (hfinish : P finish) (hheads : ∀ f ∈ fs, P f.head.start ∧ P f.head.finish)
    (hdrawn : ∀ f ∈ fs, ∀ b, f.Drawn b → ∀ t ∈ b.tasks, P t.start ∧ P t.finish) :
    ∀ b ∈ bs, ∀ t ∈ b.tasks, P t.start ∧ P t.finish := by
  have hidle : ∀ {t : Task α} {since next : α}, t.IdleBetween thread since next → P since →
      P next → ∀ u ∈ (Chart.task t).tasks, P u.start ∧ P u.finish := by
    intro t since next ht hsince hnext u hu
    obtain rfl := List.mem_singleton.1 hu
    rw [ht.start, ht.finish]
    refine ⟨hsince, ?_⟩
    -- the later of two times is one of them
    rcases Scalar.larger_eq_or since next with h | h <;> rw [h]
    · exact hsince
    · exact hnext
  induction h with
  | last ht => exact List.forall_mem_cons.2 ⟨hidle ht hsince hfinish, by simp⟩
  | turn ht hb hrest ih =>
    obtain ⟨⟨hstart, hend⟩, hheads⟩ := List.forall_mem_cons.1 hheads
    obtain ⟨hfirst, hdrawn⟩ := List.forall_mem_cons.1 hdrawn
    exact List.forall_mem_cons.2 ⟨hidle ht hsince hstart,
      List.forall_mem_cons.2 ⟨hfirst _ hb, ih hend hheads hdrawn⟩⟩

/-- **The times of tasks are times of spans.** -/
theorem Drawn.times {P : α → Prop} {f : Family α} {b : Chart α} (hb : f.Drawn b)
    (hf : ∀ s ∈ f.spans, P s.start ∧ P s.finish) : ∀ t ∈ b.tasks, P t.start ∧ P t.finish := by
  induction f generalizing b with
  | ofNode s fs ih =>
    rw [spans_node, List.forall_mem_cons] at hf
    obtain ⟨⟨hstart, hfinish⟩, hspans⟩ := hf
    have hbranches : ∀ f ∈ fs, ∀ b, f.Drawn b → ∀ t ∈ b.tasks, P t.start ∧ P t.finish :=
      fun f hf b hb => ih f hf hb fun s hs => hspans s (List.mem_flatMap_of_mem hf hs)
    rcases hb.cases with ⟨rfl, t, rfl, hwork, -⟩ | ⟨-, -, corner, first, rest, rfl, hparts⟩ |
      ⟨-, -, corner, first, rest, rfl, hturns⟩
    · intro u hu
      obtain rfl := List.mem_singleton.1 hu
      have hs : u.start = s.start := congrArg Prod.fst hwork
      have hf : u.finish = s.finish := congrArg (fun w => w.2.1) hwork
      rw [hs, hf]
      exact ⟨hstart, hfinish⟩
    · rw [Chart.tasks_group]
      intro t ht
      obtain ⟨d, hd, ht⟩ := List.mem_flatMap.1 ht
      obtain ⟨i, hi⟩ := List.getElem?_of_mem hd
      obtain ⟨f, hf, hdrawn⟩ := exists_left_of_forall₂ hparts hi
      exact hbranches f (List.mem_of_getElem? hf) d hdrawn t ht
    · rw [Chart.tasks_group]
      intro t ht
      obtain ⟨d, hd, ht⟩ := List.mem_flatMap.1 ht
      refine hturns.times hstart hfinish (fun f hf => ?_) hbranches d hd t ht
      exact hspans f.head (List.mem_flatMap_of_mem hf f.head_mem_spans)

end Family

/-! ## Layouts -/

omit [Scalar α] in
/-- Nobody but the one root gives no parent. -/
theorem Rooted.eq_of_isRoot {trace : Trace α} (h : Rooted trace) {r s : Span α} (hr : r ∈ trace)
    (hs : s ∈ trace) (hrparent : r.parent = noParent) (hsparent : s.parent = noParent) : r = s := by
  obtain ⟨root, hroots⟩ := countP_isRoot_eq_one_iff.1 h.oneRoot
  have hall : ∀ t ∈ trace, t.parent = noParent → t = root := by
    intro t ht htparent
    have hmem : t ∈ trace.filter Span.isRoot := List.mem_filter.2 ⟨ht, isRoot_iff.2 htparent⟩
    rw [hroots] at hmem
    exact List.mem_singleton.1 hmem
  exact (hall r hr hrparent).trans (hall s hs hsparent).symm

namespace Layout

variable {trace : Trace α}

/-- What is laid out has passed the checks. -/
theorem exists_check_of_ofTrace {layout : Layout α} (h : ofTrace trace = .ok layout) :
    ∃ checked, check trace = .ok checked := by
  cases hcheck : check trace with
  | error defect =>
    unfold ofTrace at h
    rw [hcheck] at h
    cases h
  | ok checked => exact ⟨checked, rfl⟩

/-- What passes the checks is a tree of spans. -/
theorem rooted_of_check (h : ∃ checked, check trace = .ok checked) : Rooted trace :=
  (exists_check_iff.1 h).1

/-- A trace that passes the checks lists a family. -/
theorem exists_family_of_check (h : ∃ checked, check trace = .ok checked) :
    ∃ f : Family α, f.ListedIn trace ∧ f.head.parent = noParent ∧ f.spans.Perm trace := by
  obtain ⟨checked, hcheck⟩ := h
  exact Family.exists_family (describes_of_check hcheck)

/-- It is laid out as that family is charted. -/
theorem ofTrace_eq_of_listedIn (h : ∃ checked, check trace = .ok checked) {f : Family α}
    (hf : f.ListedIn trace) (hroot : f.head.parent = noParent) :
    ofTrace trace = (f.chart?.mapError .broken).map ofChart := by
  have hrooted := rooted_of_check h
  obtain ⟨checked, hcheck⟩ := h
  have hdescribes := describes_of_check hcheck
  -- the root that was found is the head of the family
  obtain ⟨r, hroots, hid⟩ := hdescribes.root
  obtain ⟨hr, hparent⟩ := mem_of_filter_eq hroots
  obtain rfl : f.head = r :=
    hrooted.eq_of_isRoot (hf.spans_subset _ f.head_mem_spans) hr hroot hparent
  unfold ofTrace
  rw [hcheck]
  simp only [Family.ofSpan_eq_chart? hdescribes hf hid]
  cases f.chart? with
  | error fault => rfl
  | ok chart => rfl

/-- **The layout of a trace** is drawn of the family that the trace lists. -/
theorem exists_drawn {layout : Layout α} (h : ofTrace trace = .ok layout) :
    ∃ f : Family α, f.ListedIn trace ∧ f.head.parent = noParent ∧ f.spans.Perm trace ∧
      f.Drawn layout.chart ∧ layout.links = layout.chart.innerLinks := by
  have hcheck := exists_check_of_ofTrace h
  obtain ⟨f, hf, hroot, hperm⟩ := exists_family_of_check hcheck
  rw [ofTrace_eq_of_listedIn hcheck hf hroot] at h
  cases hchart : f.chart? with
  | error fault => rw [hchart] at h; cases h
  | ok chart =>
    rw [hchart] at h
    cases h
    exact ⟨f, hf, hroot, hperm, ⟨chart, _, hchart, rfl⟩, rfl⟩

/-- A run of two spans in turn, of which the first is a join of two more.  Children are listed
    before their parents. -/
def joinInTurns : Trace Float :=
  [⟨3, 2, 1, 4, 1, ""⟩, ⟨4, 2, 2, 8, 2, ""⟩, ⟨2, 1, 1, 9, 0, "join"⟩, ⟨5, 1, 9, 10, 0, ""⟩,
    ⟨1, 0, 0, 10, 0, ""⟩]

theorem exists_ofTrace_joinInTurns : ∃ layout, ofTrace joinInTurns = .ok layout := by
  have hsome : (ofTrace joinInTurns).toOption.isSome = true := by decide +kernel
  cases h : ofTrace joinInTurns with
  | error failure => rw [h] at hsome; cases hsome
  | ok layout => exact ⟨layout, rfl⟩

end Layout

end SpanChart
