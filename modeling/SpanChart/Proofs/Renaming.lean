/-
  RENAMING — a layout depends on the shape of its trace alone.

  Ids say who is whose child, and the order of a trace says which child came first.  Nothing else
  about either has any part in a layout: the spans may be called by other names, and those of
  different parents may be listed in any order (`Relisted`).

  1. `Relisted.rooted` — the spans remain a tree as high as before, so the checks have the same
     outcome, though they may come upon another defect first.  Going back is a relisting as well
     (`Relisted.symm`), for on machine words a renaming that tells names apart is a permutation.

  2. `ListedIn.rename` — a trace that passes lists one family, and a relisting of it lists the
     same one under the other names.

  3. `chart?_rename` — in the chart of a family there are no names.
-/
import SpanChart.Proofs.Drawn

namespace SpanChart

variable {α : Type} {e : Equiv.Perm SpanId} {trace other : Trace α}

/-! ## Relisting -/

/-- A span under another name, whose parent goes by another name too. -/
def Span.rename (name : SpanId → SpanId) (s : Span α) : Span α :=
  { s with id := name s.id, parent := name s.parent }

/-- The same spans under other names and in another order, but the children of each parent in the
    same order as before. -/
structure Relisted (name : SpanId → SpanId) (trace other : Trace α) : Prop where
  perm : other.Perm (trace.map (Span.rename name))
  siblings : ∀ s ∈ trace, (other.filter fun t => t.parent == name s.parent) =
    (trace.filter fun t => t.parent == s.parent).map (Span.rename name)

/-- A permutation of names can be undone. -/
theorem map_rename_symm (spans : List (Span α)) :
    (spans.map (Span.rename e)).map (Span.rename e.symm) = spans := by
  have hback : ∀ s ∈ spans, ((Span.rename e.symm) ∘ (Span.rename e)) s = s := by
    intro s _
    simp [Span.rename]
  rw [List.map_map, List.map_congr_left hback]
  exact List.map_id spans

namespace Relisted

theorem mem_iff {name : SpanId → SpanId} (h : Relisted name trace other) {s : Span α} :
    s ∈ other ↔ ∃ t ∈ trace, t.rename name = s := by
  rw [h.perm.mem_iff, List.mem_map]

theorem rename_mem {name : SpanId → SpanId} (h : Relisted name trace other) {s : Span α}
    (hs : s ∈ trace) : s.rename name ∈ other :=
  h.mem_iff.2 ⟨s, hs, rfl⟩

/-- What was relisted may be listed as it was. -/
theorem symm (h : Relisted e trace other) : Relisted e.symm other trace := by
  constructor
  · have hperm := h.perm.map (Span.rename e.symm)
    rw [map_rename_symm] at hperm
    exact hperm.symm
  · intro s hs
    obtain ⟨t, ht, rfl⟩ := h.mem_iff.1 hs
    show (trace.filter fun u => u.parent == e.symm (e t.parent)) =
      (other.filter fun u => u.parent == e t.parent).map (Span.rename e.symm)
    rw [e.symm_apply_apply, h.siblings t ht, map_rename_symm]

/-! ## The checks -/

section Checks

variable {name : SpanId → SpanId} (hname : Function.Injective name)
  (hnone : name noParent = noParent)

include hname hnone

/-- Only what had no name, or no parent, has none now. -/
theorem rename_eq_noParent_iff {id : SpanId} : name id = noParent ↔ id = noParent := by
  constructor
  · intro h
    exact hname (h.trans hnone.symm)
  · rintro rfl
    exact hnone

/-- Climbing meets the same spans. -/
theorem climbs (h : Relisted name trace other) {n : Nat} {s : Span α} (climb : Climbs trace n s) :
    Climbs other n (s.rename name) := by
  induction climb with
  | root hs hroot =>
    refine .root (h.rename_mem hs) ?_
    show name _ = noParent
    rw [hroot, hnone]
  | up hs hparent ht climb ih =>
    refine .up (h.rename_mem hs) ?_ ?_ ih
    · exact fun hroot => hparent ((rename_eq_noParent_iff hname hnone).1 hroot)
    · exact congrArg name ht

/-- A tree of spans remains one. -/
theorem rooted (h : Relisted name trace other) (tree : Rooted trace) : Rooted other := by
  constructor
  case named =>
    intro s hs hid
    obtain ⟨t, ht, rfl⟩ := h.mem_iff.1 hs
    exact tree.named t ht ((rename_eq_noParent_iff hname hnone).1 hid)
  case distinct =>
    have hids : (trace.map (Span.rename name)).map Span.id = (trace.map Span.id).map name := by
      rw [List.map_map, List.map_map]
      rfl
    rw [(h.perm.map Span.id).nodup_iff, hids]
    exact tree.distinct.map hname
  case oneRoot =>
    have hroot : (Span.isRoot ∘ Span.rename name : Span α → Bool) = Span.isRoot := by
      funext s
      rw [Bool.eq_iff_iff, Function.comp_apply, isRoot_iff, isRoot_iff]
      exact rename_eq_noParent_iff hname hnone
    rw [h.perm.countP_eq, List.countP_map, hroot]
    exact tree.oneRoot
  case parents =>
    intro s hs hparent
    obtain ⟨t, ht, rfl⟩ := h.mem_iff.1 hs
    obtain ⟨u, hu, hid⟩ := tree.parents t ht
      fun hroot => hparent ((rename_eq_noParent_iff hname hnone).2 hroot)
    exact ⟨u.rename name, h.rename_mem hu, congrArg name hid⟩
  case climbs =>
    intro s hs
    obtain ⟨t, ht, rfl⟩ := h.mem_iff.1 hs
    obtain ⟨n, hn, climb⟩ := tree.climbs t ht
    exact ⟨n, hn, h.climbs hname hnone climb⟩

/-- A trace that passes the checks passes them under other names and in another order. -/
theorem exists_check [Scalar α] (h : Relisted name trace other)
    (hcheck : ∃ checked, Layout.check trace = .ok checked) :
    ∃ checked, Layout.check other = .ok checked := by
  rw [Layout.exists_check_iff] at hcheck ⊢
  obtain ⟨tree, forwards⟩ := hcheck
  refine ⟨h.rooted hname hnone tree, fun s hs => ?_⟩
  obtain ⟨t, ht, rfl⟩ := h.mem_iff.1 hs
  exact forwards t ht

end Checks

/-- The children of a span are the same, in the same order. -/
theorem childrenOf_rename {name : SpanId → SpanId} (hname : Function.Injective name)
    (h : Relisted name trace other) (s : Span α) :
    other.childrenOf (s.rename name) = (trace.childrenOf s).map (Span.rename name) := by
  unfold Trace.childrenOf
  by_cases hchild : ∃ t ∈ trace, t.parent = s.id
  · obtain ⟨t, ht, hparent⟩ := hchild
    have hsiblings := h.siblings t ht
    rwa [hparent] at hsiblings
  · -- none there and none here
    have htrace : (trace.filter fun t => t.parent == s.id) = [] :=
      List.filter_eq_nil_iff.2 fun t ht hparent => hchild ⟨t, ht, beq_iff_eq.1 hparent⟩
    rw [htrace, List.map_nil, List.filter_eq_nil_iff]
    intro u hu hparent
    obtain ⟨t, ht, rfl⟩ := h.mem_iff.1 hu
    exact hchild ⟨t, ht, hname (beq_iff_eq.1 hparent)⟩

end Relisted

/-! ## Families under other names -/

namespace Family

mutual

/-- The family with every span under another name. -/
def rename (name : SpanId → SpanId) : Family α → Family α
  | node s fs => node (s.rename name) (renameAll name fs)

/-- Several families with every span under another name. -/
def renameAll (name : SpanId → SpanId) : List (Family α) → List (Family α)
  | [] => []
  | f :: fs => f.rename name :: renameAll name fs

end

variable {name : SpanId → SpanId}

theorem renameAll_eq_map (fs : List (Family α)) : renameAll name fs = fs.map (rename name) := by
  induction fs with
  | nil => rfl
  | cons f fs ih => rw [renameAll, ih, List.map_cons]

@[simp]
theorem head_rename (f : Family α) : (f.rename name).head = f.head.rename name := by
  cases f with
  | node s fs => rfl

/-- What one trace lists the other lists under the other names. -/
theorem ListedIn.rename (hname : Function.Injective name) (h : Relisted name trace other)
    {f : Family α} (hf : f.ListedIn trace) : (f.rename name).ListedIn other := by
  induction f with
  | ofNode s fs ih =>
    cases hf with
    | node hs hheads hbranches =>
      rw [Family.rename, renameAll_eq_map]
      refine .node (h.rename_mem hs) ?_ ?_
      · rw [h.childrenOf_rename hname, ← hheads, List.map_map, List.map_map]
        exact List.map_congr_left fun f _ => head_rename f
      · intro g hg
        obtain ⟨f, hf, rfl⟩ := List.mem_map.1 hg
        exact ih f hf (hbranches f hf)

variable [Scalar α]

/-- **There are no names in a chart.** -/
theorem chart?_rename (f : Family α) : (f.rename name).chart? = f.chart? := by
  induction f with
  | ofNode s fs ih =>
    by_cases hfs : fs = []
    · subst hfs
      rfl
    · have hmap : fs.map (rename name) ≠ [] := by
        rwa [ne_eq, List.map_eq_nil_iff]
      have hturns : turns? s.thread s.finish s.start (fs.map (rename name)) =
          turns? s.thread s.finish s.start fs := by
        refine turns?_map ih fun f _ => ?_
        rw [head_rename]
        exact ⟨rfl, rfl⟩
      rw [rename, renameAll_eq_map, chart?_of_ne_nil _ hmap, chart?_of_ne_nil _ hfs,
        charts?_map ih]
      show (if s.isJoin then _ else
        turns? s.thread s.finish s.start (fs.map (rename name)) >>= _) = _
      rw [hturns]

end Family

/-! ## Layouts -/

namespace Layout

variable [Scalar α]

/-- A trace that does not pass is rejected. -/
theorem exists_rejected (h : ¬∃ checked, check trace = .ok checked) :
    ∃ defect, ofTrace trace = .error (.rejected defect) := by
  cases hcheck : check trace with
  | error defect => exact ⟨defect, ofTrace_eq_rejected_iff.2 hcheck⟩
  | ok checked => exact absurd ⟨checked, hcheck⟩ h

/-- **A layout depends on the shape of its trace alone.**  Where the spans are listed in another
    order, but those of one parent in the same, and all go by other names, the outcome is the same:
    the same layout, the same fault, or a defect in either case. -/
theorem ofTrace_relisted {name : SpanId → SpanId} (hname : Function.Injective name)
    (hnone : name noParent = noParent) (h : Relisted name trace other) :
    (∀ layout, ofTrace trace = .ok layout ↔ ofTrace other = .ok layout) ∧
      (∀ fault, ofTrace trace = .error (.broken fault) ↔
        ofTrace other = .error (.broken fault)) ∧
      ((∃ defect, ofTrace trace = .error (.rejected defect)) ↔
        ∃ defect, ofTrace other = .error (.rejected defect)) := by
  -- names are words, so that to rename them is to permute them
  obtain ⟨e, rfl⟩ : ∃ e : Equiv.Perm SpanId, ⇑e = name :=
    ⟨Equiv.ofBijective name (Finite.injective_iff_bijective.1 hname), rfl⟩
  have hback : e.symm noParent = noParent := e.symm_apply_eq.2 hnone.symm
  have hpasses : (∃ checked, check trace = .ok checked) ↔ ∃ checked, check other = .ok checked :=
    ⟨h.exists_check hname hnone, h.symm.exists_check e.symm.injective hback⟩
  by_cases hcheck : ∃ checked, check trace = .ok checked
  · obtain ⟨f, hf, hroot, -⟩ := exists_family_of_check hcheck
    have hroot' : (f.rename e).head.parent = noParent := by
      rw [Family.head_rename]
      show e f.head.parent = noParent
      rw [hroot, hnone]
    have heq : ofTrace other = ofTrace trace := by
      rw [ofTrace_eq_of_listedIn (hpasses.1 hcheck) (hf.rename hname h) hroot',
        ofTrace_eq_of_listedIn hcheck hf hroot, Family.chart?_rename]
    rw [heq]
    exact ⟨fun _ => Iff.rfl, fun _ => Iff.rfl, Iff.rfl⟩
  · obtain ⟨defect, hdefect⟩ := exists_rejected hcheck
    obtain ⟨defect', hdefect'⟩ := exists_rejected (mt hpasses.2 hcheck)
    rw [hdefect, hdefect']
    simp

/-- The same run listed root first, and with two names exchanged. -/
theorem exists_layout_relisted_joinInTurns :
    let other : Trace Float :=
      [⟨5, 0, 0, 10, 0, ""⟩, ⟨2, 5, 1, 9, 0, "join"⟩, ⟨1, 5, 9, 10, 0, ""⟩, ⟨3, 2, 1, 4, 1, ""⟩,
        ⟨4, 2, 2, 8, 2, ""⟩]
    Relisted (Equiv.swap 1 5) joinInTurns other ∧
      ∃ layout, ofTrace joinInTurns = .ok layout ∧ ofTrace other = .ok layout := by
  intro other
  have hrelisted : Relisted (Equiv.swap 1 5) joinInTurns other := ⟨by decide, by decide⟩
  obtain ⟨layout, h⟩ := exists_ofTrace_joinInTurns
  obtain ⟨hsame, -, -⟩ := ofTrace_relisted (Equiv.swap 1 5).injective (by decide) hrelisted
  exact ⟨hrelisted, layout, h, (hsame layout).1 h⟩

end Layout

end SpanChart
