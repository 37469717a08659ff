/-
  SOURCES — the links of a chart, task by task.

  Going down a chart hands every part the points that it is entered from, and a task ends the
  descent with a link from each.  Seen from the task, the points that reach it are found by its
  path alone:

  * if the chart is entered at the task, they are the points that the chart itself is entered from;
  * otherwise some part on the way down is the lowest that is not entered by the chart around it.
    That one is a sequence, and the points are the exits of the part before.

  `sources` is the second case, `links_eq` the whole rule; in it the points that came from outside
  are gone from everything but the entered tasks, which is what every statement about the links
  inside a chart rests on.
-/
import SpanChart.Proofs.Connectors

namespace SpanChart.Chart

variable {α : Type} [Scalar α]

/-- The leaves through which the part before position `i` is left, if the parts of the chart ran
    one after another and there is a part before. -/
def exitsBefore (c : Chart α) : Nat → List (Leaf α)
  | 0 => []
  | i + 1 =>
    if c.flow? = some .sequential then
      (c.parts[i]?.map fun d => d.exitLeaves.map (Leaf.under i)).getD []
    else []

/-- The leaves that the leaf at the end of a path is linked from. -/
def sources : List Nat → Chart α → List (Leaf α)
  | [], _ => []
  | i :: path, c =>
    match c.parts[i]? with
    | none => []
    | some d =>
      if d.enteredAt path then c.exitsBefore i else (d.sources path).map (Leaf.under i)

/-- The points that the part at position `i` of a chart is entered from. -/
def feed (c : Chart α) (incoming : List (Point α)) (i : Nat) : List (Point α) :=
  if c.entersBy i then incoming else (c.exitsBefore i).map fun l => l.task.exit

theorem sources_cons {c d : Chart α} {i : Nat} (hd : c.parts[i]? = some d) (path : List Nat) :
    c.sources (i :: path) =
      if d.enteredAt path then c.exitsBefore i else (d.sources path).map (Leaf.under i) := by
  rw [sources, hd]

theorem exitsBefore_succ {c d : Chart α} {i : Nat} (hflow : c.flow? = some .sequential)
    (hd : c.parts[i]? = some d) :
    c.exitsBefore (i + 1) = d.exitLeaves.map (Leaf.under i) := by
  rw [exitsBefore, if_pos hflow, hd, Option.map_some, Option.getD_some]

/-- Before a position there is nothing, or the exits of a part of a sequence. -/
theorem exitsBefore_eq_nil_or (c : Chart α) (j : Nat) :
    c.exitsBefore j = [] ∨
      ∃ i d, j = i + 1 ∧ c.flow? = some .sequential ∧ c.parts[i]? = some d ∧
        c.exitsBefore j = d.exitLeaves.map (Leaf.under i) := by
  cases j with
  | zero => exact Or.inl rfl
  | succ i =>
    by_cases hflow : c.flow? = some .sequential
    · cases hd : c.parts[i]? with
      | none => exact Or.inl (by rw [exitsBefore, if_pos hflow, hd]; rfl)
      | some d => exact Or.inr ⟨i, d, rfl, hflow, hd, exitsBefore_succ hflow hd⟩
    · exact Or.inl (if_neg hflow)

theorem mem_exitsBefore {c : Chart α} {j : Nat} {s : Leaf α} :
    s ∈ c.exitsBefore j ↔
      ∃ i d, j = i + 1 ∧ c.flow? = some .sequential ∧ c.parts[i]? = some d ∧
        ∃ x ∈ d.exitLeaves, x.under i = s := by
  constructor
  · intro hs
    rcases c.exitsBefore_eq_nil_or j with h | ⟨i, d, hj, hflow, hd, h⟩
    · rw [h] at hs
      exact absurd hs List.not_mem_nil
    · rw [h] at hs
      exact ⟨i, d, hj, hflow, hd, List.mem_map.1 hs⟩
  · rintro ⟨i, d, rfl, hflow, hd, hx⟩
    rw [exitsBefore_succ hflow hd]
    exact List.mem_map.2 hx

theorem nodup_exitsBefore (c : Chart α) (j : Nat) : (c.exitsBefore j).Nodup := by
  rcases c.exitsBefore_eq_nil_or j with h | ⟨i, d, -, -, -, h⟩
  · rw [h]
    exact List.nodup_nil
  · rw [h]
    exact (d.nodup_leaves.filter _).map (Leaf.under_injective i)

/-- A part that the chart is entered by has nothing before it. -/
theorem exitsBefore_of_entersBy {c : Chart α} {i : Nat} (h : c.entersBy i = true) :
    c.exitsBefore i = [] := by
  cases i with
  | zero => rfl
  | succ i =>
    rw [exitsBefore, if_neg]
    intro hflow
    simp [entersBy, hflow] at h

/-! ## The links of a group, part by part -/

/-- The exits of each part of a sequence feed the part after it. -/
theorem feed_succ {c d : Chart α} {i : Nat} (hflow : c.flow? = some .sequential)
    (hd : c.parts[i]? = some d) (incoming : List (Point α)) :
    c.feed incoming (i + 1) = d.exits := by
  rw [feed, if_neg (by simp [entersBy, hflow]), exitsBefore_succ hflow hd, List.map_map, exits_eq]
  rfl

/-- Going along a sequence from position `i` on, every part gets its feed. -/
theorem linksAfter_eq {c : Chart α} (hflow : c.flow? = some .sequential)
    (incoming : List (Point α)) {i : Nat} {cs : List (Chart α)} (hcs : c.parts.drop i = cs) :
    linksAfter (c.feed incoming i) cs =
      (cs.zipIdx i).flatMap fun d => d.1.links (c.feed incoming d.2) := by
  induction cs generalizing i with
  | nil => rfl
  | cons d ds ih =>
    have hd : c.parts[i]? = some d := by
      rw [← List.head?_drop, hcs]; rfl
    have hds : c.parts.drop (i + 1) = ds := by
      rw [← List.drop_drop, hcs]; rfl
    rw [linksAfter, ← feed_succ hflow hd incoming, ih hds, List.zipIdx_cons, List.flatMap_cons]

/-- The links of a group are those of its parts, each entered from its feed. -/
theorem links_group (flow : Flow) (corner : Point α) (first : Chart α) (rest : List (Chart α))
    (incoming : List (Point α)) :
    (group flow corner first rest).links incoming =
      (first :: rest).zipIdx.flatMap fun d =>
        d.1.links ((group flow corner first rest).feed incoming d.2) := by
  cases flow with
  | parallel =>
    have hfeed : ∀ i, (group .parallel corner first rest).feed incoming i = incoming :=
      fun i => if_pos (by simp [entersBy, flow?])
    simp only [hfeed]
    rw [links, linksBeside_eq_flatMap, ← List.flatMap_cons]
    conv_lhs => rw [← List.zipIdx_map_fst 0 (first :: rest), List.flatMap_map]
  | sequential =>
    -- a sequence is linked from its first part on, which is fed by what comes in
    have hzero : (group .sequential corner first rest).feed incoming 0 = incoming :=
      if_pos (by simp [entersBy])
    have h := linksAfter_eq (c := group .sequential corner first rest) rfl incoming (i := 0)
      (List.drop_zero)
    rw [hzero] at h
    exact h

/-! ## The links of a chart, leaf by leaf -/

/-- The points that the leaf at the end of a path is linked from, in a chart that is itself entered
    from the `incoming` points. -/
def sourcePoints (c : Chart α) (incoming : List (Point α)) (path : List Nat) : List (Point α) :=
  if c.enteredAt path then incoming else (c.sources path).map fun l => l.task.exit

/-- What feeds a part reaches the leaves in it. -/
theorem sourcePoints_cons {c d : Chart α} {i : Nat} (hd : c.parts[i]? = some d)
    (incoming : List (Point α)) (path : List Nat) :
    c.sourcePoints incoming (i :: path) = d.sourcePoints (c.feed incoming i) path := by
  unfold sourcePoints feed
  rw [enteredAt_cons hd, sources_cons hd]
  cases d.enteredAt path with
  | true => cases c.entersBy i <;> rfl
  | false =>
    rw [Bool.and_false, if_neg Bool.false_ne_true, if_neg Bool.false_ne_true,
      if_neg Bool.false_ne_true, List.map_map]
    rfl

/-- **The links of a chart**: for every leaf in turn, one from each of its source points. -/
theorem links_eq (c : Chart α) (incoming : List (Point α)) :
    c.links incoming = c.leaves.flatMap fun l =>
      (c.sourcePoints incoming l.path).map fun source => ⟨source, l.task.entry⟩ := by
  induction c using inductParts generalizing incoming with
  | ofTask t => rw [leaves, List.flatMap_singleton]; rfl
  | ofGroup flow corner first rest ih =>
    rw [links_group, leaves_group, List.flatMap_assoc]
    refine List.flatMap_congr ?_
    rintro ⟨d, i⟩ hd
    have hpart : (group flow corner first rest).parts[i]? = some d :=
      List.mem_zipIdx_iff_getElem?.1 hd
    rw [ih d (List.mem_of_getElem? hpart), List.flatMap_map]
    refine List.flatMap_congr fun l _ => ?_
    rw [← sourcePoints_cons hpart]
    rfl

/-- A leaf at which the chart is entered has no sources inside it. -/
theorem sources_of_enteredAt {path : List Nat} {c : Chart α} (h : c.enteredAt path = true) :
    c.sources path = [] := by
  induction path generalizing c with
  | nil => rfl
  | cons i path ih =>
    cases hd : c.parts[i]? with
    | none => rw [sources, hd]
    | some d =>
      rw [enteredAt_cons hd, Bool.and_eq_true] at h
      rw [sources_cons hd, if_pos h.2, exitsBefore_of_entersBy h.1]

/-- The links inside a chart: for every leaf in turn, one from each of its sources. -/
theorem innerLinks_eq (c : Chart α) :
    c.innerLinks = c.leaves.flatMap fun l =>
      (c.sources l.path).map fun s => ⟨s.task.exit, l.task.entry⟩ := by
  rw [innerLinks, links_eq]
  refine List.flatMap_congr fun l _ => ?_
  unfold sourcePoints
  by_cases h : c.enteredAt l.path
  · rw [if_pos h, sources_of_enteredAt h]; rfl
  · rw [if_neg h, List.map_map]; rfl

/-! ## Sources as leaves -/

/-- A source of a leaf in a part is an exit of the part before, or lies in the same part. -/
theorem mem_sources_cons {c d : Chart α} {j : Nat} (hd : c.parts[j]? = some d) {path : List Nat}
    {s : Leaf α} :
    s ∈ c.sources (j :: path) ↔
      d.enteredAt path = true ∧ s ∈ c.exitsBefore j ∨
        d.enteredAt path = false ∧ ∃ x ∈ d.sources path, x.under j = s := by
  rw [sources_cons hd]
  cases d.enteredAt path <;> simp

/-- The sources of a leaf are leaves of the same chart. -/
theorem sources_subset {path : List Nat} {c : Chart α} {s : Leaf α} (hs : s ∈ c.sources path) :
    s ∈ c.leaves := by
  induction path generalizing c s with
  | nil => exact absurd hs List.not_mem_nil
  | cons j path ih =>
    cases hd : c.parts[j]? with
    | none => rw [sources, hd] at hs; exact absurd hs List.not_mem_nil
    | some d =>
      rcases (mem_sources_cons hd).1 hs with ⟨-, hs⟩ | ⟨-, x, hx, rfl⟩
      · obtain ⟨i, e, -, -, he, x, hx, rfl⟩ := mem_exitsBefore.1 hs
        exact (under_mem_leaves he).2 (List.mem_filter.1 hx).1
      · exact (under_mem_leaves hd).2 (ih hx)

/-- No source of a leaf is listed twice. -/
theorem nodup_sources (path : List Nat) (c : Chart α) : (c.sources path).Nodup := by
  induction path generalizing c with
  | nil => exact List.nodup_nil
  | cons j path ih =>
    cases hd : c.parts[j]? with
    | none => rw [sources, hd]; exact List.nodup_nil
    | some d =>
      rw [sources_cons hd]
      split
      · exact nodup_exitsBefore c j
      · exact (ih d).map (Leaf.under_injective j)

end SpanChart.Chart
