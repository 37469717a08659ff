/-
  SIBLINGS — the lists that the spans of a trace are sorted into.

  A lineage is made in one pass over the trace.  A span without a parent goes to the end of the
  roots, and any other to the end of the list that its parent has, which is begun if there is none
  yet.  Nothing is checked on the way: ids may repeat or be the reserved one, a parent may be the
  span itself, or nowhere in the trace, or further down its own line.  So it is all traces that
  something is said about here, and what can be said is the same for roots and children: each list
  has the ids of those that give one and the same parent, in trace order (`Trace.idsUnder`).

  1. `Holds` — what a lineage has to do with the spans it has taken in.  This is the invariant of
     the pass: `Holds.adopt` is its step, and `Holds.foldl_adopt` the run, by induction on the
     trace and for whatever was taken in before.

  2. `Holds.perm` — no span is lost and none comes twice.  Ids do not tell spans apart here, so the
     argument is not about ids that are listed but about spans that are sifted: what one parent does
     not take is left to the others (`Trace.flatMap_idsUnder_perm`).

  3. `Holds.equiv` — only one lineage holds a trace.  So the pass comes to `Lineage.ofTrace`, which
     goes through the trace from its end.
-/
import Mathlib.Data.List.Perm.Basic
import SpanChart.Trace.Lineage

namespace SpanChart

variable {α : Type}

/-! ## Siblings in a trace -/

/-- The ids of the spans that give `parent` as their parent, in trace order.  Those under `noParent`
    are the roots. -/
def Trace.idsUnder (trace : Trace α) (parent : SpanId) : List SpanId :=
  (trace.filter fun s => s.parent == parent).map Span.id

namespace Trace

theorem idsUnder_append (before after : Trace α) (parent : SpanId) :
    idsUnder (before ++ after) parent = before.idsUnder parent ++ after.idsUnder parent := by
  rw [idsUnder, List.filter_append, List.map_append]
  rfl

theorem idsUnder_singleton (s : Span α) (parent : SpanId) :
    idsUnder [s] parent = if s.parent = parent then [s.id] else [] := by
  by_cases h : s.parent = parent <;> simp [idsUnder, h]

/-- There is somebody under a parent that is given. -/
theorem idsUnder_ne_nil_iff {trace : Trace α} {parent : SpanId} :
    trace.idsUnder parent ≠ [] ↔ ∃ s ∈ trace, s.parent = parent := by
  simp [idsUnder]

/-- The spans that give another parent than this, or none. -/
def notUnder (trace : Trace α) (parent : SpanId) : Trace α :=
  trace.filter fun s => !(s.parent == parent)

/-- Taking those under one parent away takes nobody from the others. -/
theorem idsUnder_notUnder {p q : SpanId} (h : q ≠ p) (trace : Trace α) :
    (trace.notUnder p).idsUnder q = trace.idsUnder q := by
  rw [idsUnder, notUnder, List.filter_filter]
  refine congrArg _ (List.filter_congr fun s _ => ?_)
  by_cases hq : s.parent = q <;> simp [hq, h]

theorem idsUnder_append_notUnder_perm (trace : Trace α) (p : SpanId) :
    (trace.idsUnder p ++ (trace.notUnder p).map Span.id).Perm (trace.map Span.id) := by
  rw [idsUnder, ← List.map_append]
  exact (List.filter_append_perm _ trace).map Span.id

/-- **Sifting a trace by parent** keeps every span once, if no parent is asked for twice and none
    is left out.  The induction is on the parents: the spans that the first one does not take are a
    trace for the others. -/
theorem flatMap_idsUnder_perm {parents : List SpanId} (distinct : parents.Nodup) {trace : Trace α}
    (covered : ∀ s ∈ trace, s.parent ∈ parents) :
    (parents.flatMap trace.idsUnder).Perm (trace.map Span.id) := by
  induction parents generalizing trace with
  | nil =>
    have hnil : trace = [] :=
      List.eq_nil_iff_forall_not_mem.2 fun s hs => List.not_mem_nil (covered s hs)
    rw [hnil]
    exact List.Perm.nil
  | cons p parents ih =>
    obtain ⟨hp, distinct⟩ := List.nodup_cons.1 distinct
    have hcovered : ∀ s ∈ trace.notUnder p, s.parent ∈ parents := by
      intro s hs
      obtain ⟨hs, hother⟩ := List.mem_filter.1 hs
      exact (List.mem_cons.1 (covered s hs)).resolve_left (by simpa using hother)
    have hothers : ∀ q ∈ parents, trace.idsUnder q = (trace.notUnder p).idsUnder q := by
      intro q hq
      have hqp : q ≠ p := fun h => hp (h ▸ hq)
      exact (idsUnder_notUnder hqp trace).symm
    -- the others find the same spans whether or not those of `p` are still there
    rw [List.flatMap_cons, List.flatMap_congr hothers]
    exact ((ih distinct hcovered).append_left _).trans (trace.idsUnder_append_notUnder_perm p)

end Trace

/-! ## One pass -/

namespace Children

/-- Puts a span behind all the children that its parent has so far. -/
def addLast (s : Span α) (children : Children) : Children :=
  children.insert s.parent (children.of s.parent ++ [s.id])

theorem of_addLast (s : Span α) (children : Children) (parent : SpanId) :
    (addLast s children).of parent =
      if s.parent = parent then children.of parent ++ [s.id] else children.of parent := by
  rw [addLast, of_insert]
  split
  case isTrue h => rw [h]
  case isFalse => rfl

/-- The list that is kept for a parent is that of its children. -/
theorem getElem?_eq_some_iff {children : Children} {parent : SpanId} {ids : List SpanId} :
    children[parent]? = some ids ↔ parent ∈ children ∧ ids = children.of parent := by
  rw [of, Std.TreeMap.getD_eq_getD_getElem?, ← Std.TreeMap.isSome_getElem?_iff_mem]
  cases children[parent]? <;> simp [eq_comm]

end Children

namespace Lineage

/-- A lineage is emptied. -/
def cleared (_lineage : Lineage) : Lineage := ⟨∅, []⟩

/-- Takes one more span in: behind the roots if it gives no parent, and otherwise behind the
    children of the parent that it gives. -/
def adopt (lineage : Lineage) (s : Span α) : Lineage :=
  if s.isRoot then { lineage with roots := lineage.roots ++ [s.id] }
  else { lineage with children := lineage.children.addLast s }

/-- Takes the spans of a trace in, in the place of whoever was held, who is dropped first. -/
def refill (held : Lineage) (trace : Trace α) : Lineage :=
  trace.foldl adopt held.cleared

/-! ## What is held -/

/-- The lineage has the spans of the list under the parents they give, in this order, and keeps a
    list for nobody else. -/
structure Holds (lineage : Lineage) (spans : Trace α) : Prop where
  roots : lineage.roots = spans.idsUnder noParent
  parents : ∀ p, p ∈ lineage.children ↔ p ≠ noParent ∧ ∃ s ∈ spans, s.parent = p
  siblings : ∀ p, p ≠ noParent → lineage.children.of p = spans.idsUnder p

theorem holds_cleared (held : Lineage) : held.cleared.Holds ([] : Trace α) where
  roots := rfl
  parents p := by simp [cleared]
  siblings p _ := rfl

namespace Holds

variable {lineage other : Lineage} {seen spans : Trace α}

/-- **The step.**  Whatever a span is like, taking it in puts its id behind those under the parent
    that it gives, and leaves everything else where it is. -/
theorem adopt (h : lineage.Holds seen) (s : Span α) :
    (lineage.adopt s).Holds (seen ++ [s]) := by
  have hmore : ∀ p, Trace.idsUnder (seen ++ [s]) p =
      seen.idsUnder p ++ if s.parent = p then [s.id] else [] := by
    intro p
    rw [Trace.idsUnder_append, Trace.idsUnder_singleton]
  have hgiven : ∀ p, (∃ t ∈ seen ++ [s], t.parent = p) ↔
      s.parent = p ∨ ∃ t ∈ seen, t.parent = p := by
    intro p
    simp [or_and_right, exists_or, or_comm]
  -- either it is a root and no list changes, or the list of one parent does
  unfold Lineage.adopt
  split
  case isTrue root =>
    have hroot : s.parent = noParent := by simpa [Span.isRoot] using root
    constructor
    · rw [hmore, if_pos hroot, ← h.roots]
    · intro p
      rw [h.parents, hgiven]
      grind
    · intro p hp
      have hother : s.parent ≠ p := fun hs => hp (hs.symm.trans hroot)
      rw [hmore, if_neg hother, List.append_nil, h.siblings p hp]
  case isFalse root =>
    have hparent : s.parent ≠ noParent := by simpa [Span.isRoot] using root
    constructor
    · rw [hmore, if_neg hparent, List.append_nil, h.roots]
    · intro p
      rw [Children.addLast, Children.mem_insert, h.parents, hgiven]
      grind
    · intro p hp
      rw [Children.of_addLast, hmore, h.siblings p hp]
      split
      case isTrue => rfl
      case isFalse => rw [List.append_nil]

/-- **The run.**  The spans of a trace come behind those that are held, in every list. -/
theorem foldl_adopt (h : lineage.Holds seen) (trace : Trace α) :
    (trace.foldl Lineage.adopt lineage).Holds (seen ++ trace) := by
  induction trace generalizing lineage seen with
  | nil => rwa [List.append_nil]
  | cons s trace ih =>
    rw [List.foldl_cons, List.append_cons]
    exact ih (h.adopt s)

/-- What is kept is the siblings under each parent that is given, and nothing else. -/
theorem lookup (h : lineage.Holds spans) (p : SpanId) (ids : List SpanId) :
    lineage.children[p]? = some ids ↔
      p ≠ noParent ∧ (∃ s ∈ spans, s.parent = p) ∧ ids = spans.idsUnder p := by
  rw [Children.getElem?_eq_some_iff, h.parents, and_assoc]
  refine and_congr_right fun hp => ?_
  rw [h.siblings p hp]

/-- No list is kept that has nobody. -/
theorem getElem?_ne_nil (h : lineage.Holds spans) (p : SpanId) :
    lineage.children[p]? ≠ some [] := by
  intro hnil
  obtain ⟨_, hgiven, hids⟩ := (h.lookup p []).1 hnil
  exact Trace.idsUnder_ne_nil_iff.2 hgiven hids.symm

/-- The lists that are kept, one after the other, are the siblings under one parent after the
    other. -/
theorem toList_flatMap_snd (h : lineage.Holds spans) :
    lineage.children.toList.flatMap Prod.snd = lineage.children.keys.flatMap spans.idsUnder := by
  rw [← Std.TreeMap.map_fst_toList_eq_keys, List.flatMap_map]
  refine List.flatMap_congr fun entry hentry => ?_
  exact ((h.lookup _ _).1 (Std.TreeMap.mem_toList_iff_getElem?_eq_some.1 hentry)).2.2

/-- **Nobody is lost and nobody comes twice.**  The roots and all the children are the spans of the
    trace, each as often as it is there. -/
theorem perm (h : lineage.Holds spans) :
    (lineage.roots ++ lineage.children.toList.flatMap Prod.snd).Perm (spans.map Span.id) := by
  have distinct : (noParent :: lineage.children.keys).Nodup := by
    refine List.nodup_cons.2 ⟨?_, Std.TreeMap.nodup_keys⟩
    rw [Std.TreeMap.mem_keys, h.parents]
    exact fun hnone => hnone.1 rfl
  have covered : ∀ s ∈ spans, s.parent ∈ noParent :: lineage.children.keys := by
    intro s hs
    rw [List.mem_cons, Std.TreeMap.mem_keys, h.parents, or_iff_not_imp_left]
    exact fun hparent => ⟨hparent, s, hs, rfl⟩
  rw [h.roots, h.toList_flatMap_snd, ← List.flatMap_cons]
  exact Trace.flatMap_idsUnder_perm distinct covered

/-- **Only one lineage holds the spans of a list.** -/
theorem equiv (h : lineage.Holds spans) (h' : other.Holds spans) :
    lineage.roots = other.roots ∧ lineage.children.Equiv other.children := by
  refine ⟨h.roots.trans h'.roots.symm, Std.TreeMap.Equiv.of_forall_constGet?_eq fun p => ?_⟩
  refine Option.ext fun ids => ?_
  exact (h.lookup p ids).trans (h'.lookup p ids).symm

end Holds

end Lineage

/-! ## The lineage of a trace -/

/-- Lists are kept for those that somebody gives as parent. -/
theorem Children.mem_ofTrace {trace : Trace α} {p : SpanId} :
    p ∈ Children.ofTrace trace ↔ p ≠ noParent ∧ ∃ s ∈ trace, s.parent = p := by
  unfold Children.ofTrace
  induction trace with
  | nil => simp
  | cons s trace ih =>
    cases root : s.isRoot with
    | true =>
      have hroot : s.parent = noParent := by simpa [Span.isRoot] using root
      rw [List.filter_cons_of_neg (by simp [root]), ih]
      grind
    | false =>
      have hparent : s.parent ≠ noParent := by simpa [Span.isRoot] using root
      rw [List.filter_cons_of_pos (by simp [root]), List.foldr_cons, Children.addFirst,
        Children.mem_insert, ih]
      grind

namespace Lineage

/-- Going through a trace from its end comes to the same. -/
theorem holds_ofTrace (trace : Trace α) : (ofTrace trace).Holds trace where
  roots := rfl
  parents _ := Children.mem_ofTrace
  siblings p hp := by
    rw [ofTrace, Children.of_ofTrace, Trace.idsUnder]
    refine congrArg _ (List.filter_congr fun s _ => ?_)
    by_cases h : s.parent = p <;> simp [Span.isRoot, h, hp]

/-- **Siblings keep their order, and nobody else is among them.**  This is so for every trace, of
    whatever ids and parents, and whatever a lineage held before it is filled with it.

    The roots are the ids of the spans that give no parent, in trace order.  A list is kept for
    exactly those who are somebody's parent, and it has the ids of the spans that give this parent,
    in trace order; so none of the lists is empty.  The roots and all lists together have every id
    as often as there are spans of this id in the trace.

    And this lineage is the one that charts of the trace are made by. -/
theorem refill_lists_siblings (held : Lineage) (trace : Trace α) :
    (held.refill trace).roots = trace.idsUnder noParent ∧
      (∀ (p : SpanId) ids, (held.refill trace).children[p]? = some ids ↔
        p ≠ noParent ∧ (∃ s ∈ trace, s.parent = p) ∧ ids = trace.idsUnder p) ∧
      (∀ p : SpanId, (held.refill trace).children[p]? ≠ some []) ∧
      ((held.refill trace).roots ++ (held.refill trace).children.toList.flatMap Prod.snd).Perm
        (trace.map Span.id) ∧
      (held.refill trace).roots = (ofTrace trace).roots ∧
      (held.refill trace).children.Equiv (ofTrace trace).children := by
  have h : (held.refill trace).Holds trace := held.holds_cleared.foldl_adopt trace
  exact ⟨h.roots, h.lookup, h.getElem?_ne_nil, h.perm, h.equiv (holds_ofTrace trace)⟩

/-- A reserved id, a span that is its own parent, an id that comes twice and a parent that is
    nowhere. -/
example :
    let span (id parent : SpanId) : Span Rat := ⟨id, parent, 0, 1, 0, ""⟩
    let lineage := refill ⟨∅, [9]⟩ [span 3 7, span 5 5, span 5 0, span 0 7]
    lineage.roots = [5] ∧ lineage.children.toList = [(5, [5]), (7, [3, 0])] := by
  decide +kernel

end Lineage

end SpanChart
