/-
  REVISIONS — traces that were changed span by span, and not in who descends from whom.

  A span says where it belongs by two of its fields, its name and its parent's.  Whatever a revision
  does to the others, times and threads and tags, the spans remain the same tree in the same order:
  what is a tree stays one and what is none becomes none (`rooted_map_iff`), and the family that the
  revised trace lists is the revised family (`Family.ListedIn.map`).

  So a statement about two traces of one lineage is a statement about the charts of a family and of
  its revision.
-/
import SpanChart.Proofs.Drawn

namespace SpanChart

variable {α β : Type}

/-- Whatever the revision makes of a span, its name and its parent's stay. -/
structure KeepsLineage (revise : Span α → Span β) : Prop where
  id : ∀ s, (revise s).id = s.id
  parent : ∀ s, (revise s).parent = s.parent

namespace KeepsLineage

variable {revise : Span α → Span β} {trace : Trace α}

/-! ## Trees of spans -/

theorem isRoot (h : KeepsLineage revise) (s : Span α) : (revise s).isRoot = s.isRoot :=
  congrArg (· == noParent) (h.parent s)

theorem map_id (h : KeepsLineage revise) : (trace.map revise).map Span.id = trace.map Span.id := by
  rw [List.map_map]
  exact List.map_congr_left fun s _ => h.id s

/-- Climbing from a revised span meets the revisions of what climbing from the span meets. -/
theorem climbs_map (h : KeepsLineage revise) {n : Nat} {s : Span α} (climb : Climbs trace n s) :
    Climbs (trace.map revise) n (revise s) := by
  induction climb with
  | root hs hroot => exact .root (List.mem_map_of_mem hs) ((h.parent _).trans hroot)
  | up hs hparent ht climb ih =>
    refine .up (List.mem_map_of_mem hs) ?_ ?_ ih
    · rwa [h.parent]
    · rw [h.id, h.parent]
      exact ht

/-- Nothing else is met. -/
theorem climbs_of_map (h : KeepsLineage revise) {n : Nat} {t : Span β}
    (climb : Climbs (trace.map revise) n t) : ∀ s ∈ trace, revise s = t → Climbs trace n s := by
  induction climb with
  | root ht hroot =>
    rintro s hs rfl
    exact .root hs ((h.parent s).symm.trans hroot)
  | up ht hparent hu climb ih =>
    rintro s hs rfl
    obtain ⟨r, hr, rfl⟩ := List.mem_map.1 climb.mem
    rw [h.parent] at hparent
    rw [h.id, h.parent] at hu
    exact .up hs hparent hu (ih r hr rfl)

/-- **A revision of a tree is a tree**, and only of a tree. -/
theorem rooted_map_iff (h : KeepsLineage revise) : Rooted (trace.map revise) ↔ Rooted trace := by
  have hcount : (trace.map revise).countP Span.isRoot = trace.countP Span.isRoot := by
    rw [List.countP_map]
    exact List.countP_congr fun s _ => by rw [Function.comp_apply, h.isRoot]
  constructor
  · intro tree
    constructor
    case named =>
      intro s hs
      rw [← h.id]
      exact tree.named _ (List.mem_map_of_mem hs)
    case distinct =>
      rw [← h.map_id]
      exact tree.distinct
    case oneRoot =>
      rw [← hcount]
      exact tree.oneRoot
    case parents =>
      intro s hs hparent
      rw [← h.parent] at hparent
      obtain ⟨t, ht, hid⟩ := tree.parents _ (List.mem_map_of_mem hs) hparent
      obtain ⟨u, hu, rfl⟩ := List.mem_map.1 ht
      rw [h.id, h.parent] at hid
      exact ⟨u, hu, hid⟩
    case climbs =>
      intro s hs
      obtain ⟨n, hn, climb⟩ := tree.climbs _ (List.mem_map_of_mem hs)
      exact ⟨n, hn, h.climbs_of_map climb s hs rfl⟩
  · intro tree
    constructor
    case named =>
      intro t ht
      obtain ⟨s, hs, rfl⟩ := List.mem_map.1 ht
      rw [h.id]
      exact tree.named s hs
    case distinct =>
      rw [h.map_id]
      exact tree.distinct
    case oneRoot =>
      rw [hcount]
      exact tree.oneRoot
    case parents =>
      intro t ht hparent
      obtain ⟨s, hs, rfl⟩ := List.mem_map.1 ht
      rw [h.parent] at hparent
      obtain ⟨u, hu, hid⟩ := tree.parents s hs hparent
      refine ⟨revise u, List.mem_map_of_mem hu, ?_⟩
      rw [h.id, h.parent, hid]
    case climbs =>
      intro t ht
      obtain ⟨s, hs, rfl⟩ := List.mem_map.1 ht
      obtain ⟨n, hn, climb⟩ := tree.climbs s hs
      exact ⟨n, hn, h.climbs_map climb⟩

/-- The children of a revised span are the revisions of its children. -/
theorem childrenOf_map (h : KeepsLineage revise) (s : Span α) :
    Trace.childrenOf (trace.map revise) (revise s) = (trace.childrenOf s).map revise := by
  unfold Trace.childrenOf
  rw [List.filter_map]
  have hparent : ((fun t : Span β => t.parent == (revise s).id) ∘ revise) =
      fun t => t.parent == s.id := by
    funext t
    rw [Function.comp_apply, h.parent, h.id]
  rw [hparent]

end KeepsLineage

/-! ## Families under revision -/

namespace Family

variable {revise : Span α → Span β}

mutual

/-- The family with every span revised. -/
def map (revise : Span α → Span β) : Family α → Family β
  | node s fs => node (revise s) (mapAll revise fs)

/-- Several families with every span revised. -/
def mapAll (revise : Span α → Span β) : List (Family α) → List (Family β)
  | [] => []
  | f :: fs => f.map revise :: mapAll revise fs

end

theorem mapAll_eq_map (fs : List (Family α)) : mapAll revise fs = fs.map (map revise) := by
  induction fs with
  | nil => rfl
  | cons f fs ih => rw [mapAll, ih, List.map_cons]

theorem map_node (s : Span α) (fs : List (Family α)) :
    (node s fs).map revise = node (revise s) (fs.map (map revise)) := by
  rw [map, mapAll_eq_map]

@[simp]
theorem head_map (f : Family α) : (f.map revise).head = revise f.head := by
  cases f with
  | node s fs => rfl

/-- **What a trace lists its revision lists revised.** -/
theorem ListedIn.map (h : KeepsLineage revise) {trace : Trace α} {f : Family α}
    (hf : f.ListedIn trace) : (f.map revise).ListedIn (trace.map revise) := by
  induction f with
  | ofNode s fs ih =>
    cases hf with
    | node hs hheads hbranches =>
      rw [map_node]
      refine .node (List.mem_map_of_mem hs) ?_ ?_
      · rw [h.childrenOf_map, ← hheads, List.map_map, List.map_map]
        exact List.map_congr_left fun f _ => head_map f
      · intro g hg
        obtain ⟨f, hf, rfl⟩ := List.mem_map.1 hg
        exact ih f hf (hbranches f hf)

end Family

end SpanChart
