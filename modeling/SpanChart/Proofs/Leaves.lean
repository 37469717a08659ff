/-
  LEAVES — the tasks of a chart together with the way down to each.

  Two tasks of one chart can agree in everything, their place included, so a task does not say
  which one of them it is.  Its path does: the positions to go down from the root.  A `Leaf` is a
  task with its path, `leaves` lists all of them depth first, and this file says what such a list
  looks like from above:

  * the leaves of a group are those of its parts, each below the position of its part
    (`leaves_group`, `mem_leaves_group`);
  * a leaf is listed exactly if its path leads to its task (`mem_leaves`), so that no two have the
    same path;
  * no leaf is listed twice (`nodup_leaves`).

  Everything about a group is said over the one list `first :: rest` of its parts; that the type
  stores the first of them apart matters to nobody from here on.
-/
import Mathlib.Data.List.Nodup
import SpanChart.Chart.Placement

namespace SpanChart

variable {α : Type} [Scalar α]

/-- A task of a chart, and the positions to go down to it. -/
structure Leaf (α : Type) [Scalar α] where
  path : List Nat
  task : Task α

/-- The leaf as it is seen from one level further up. -/
def Leaf.under (i : Nat) (l : Leaf α) : Leaf α := ⟨i :: l.path, l.task⟩

theorem Leaf.under_injective (i : Nat) : Function.Injective (Leaf.under i : Leaf α → Leaf α) := by
  rintro ⟨p, t⟩ ⟨q, u⟩ h
  obtain ⟨hpath, rfl⟩ : i :: p = i :: q ∧ t = u := Leaf.mk.inj h
  obtain rfl : p = q := (List.cons.inj hpath).2
  rfl

namespace Chart

/-! ## Groups as lists of parts -/

/-- Induction over charts, with all the parts of a group in one list. -/
theorem inductParts {motive : Chart α → Prop} (ofTask : ∀ t, motive (task t))
    (ofGroup : ∀ flow corner first rest,
      (∀ c ∈ first :: rest, motive c) → motive (group flow corner first rest)) (c : Chart α) :
    motive c := by
  induction c with
  | ofTask t => exact ofTask t
  | ofGroup flow corner first rest ihFirst ihRest =>
    refine ofGroup flow corner first rest fun c hc => ?_
    rcases List.mem_cons.1 hc with h | h
    · exact h ▸ ihFirst
    · exact ihRest c h

theorem at?_cons (i : Nat) (path : List Nat) (c : Chart α) :
    c.at? (i :: path) = c.parts[i]?.bind (at? path) :=
  rfl

/-- Going down two paths one after the other. -/
theorem at?_append (p q : List Nat) (c : Chart α) : c.at? (p ++ q) = (c.at? p).bind (at? q) := by
  induction p generalizing c with
  | nil => rfl
  | cons i p ih =>
    rw [List.cons_append, at?_cons, at?_cons]
    cases c.parts[i]? with
    | none => rfl
    | some d => exact ih d

/-- Below a part lies what lies below it in the whole. -/
theorem at?_cons_of_part {c d : Chart α} {i : Nat} (hd : c.parts[i]? = some d) (path : List Nat) :
    c.at? (i :: path) = d.at? path := by
  rw [at?_cons, hd, Option.bind_some]

/-- The tasks of a chart inside another are tasks of that one. -/
theorem tasks_subset_of_at? {path : List Nat} {a b : Chart α}
    (hb : a.at? path = some b) {t : Task α} (ht : t ∈ b.tasks) : t ∈ a.tasks := by
  induction path generalizing a with
  | nil => exact Option.some.inj hb ▸ ht
  | cons i path ih =>
    rw [at?_cons] at hb
    obtain ⟨d, hd, hbelow⟩ := Option.bind_eq_some_iff.1 hb
    cases a with
    | task t => exact absurd hd (by simp [parts])
    | group flow corner first rest =>
      rw [tasks_group]
      exact List.mem_flatMap.2 ⟨d, List.mem_of_getElem? hd, ih hbelow⟩

/-! ## The leaves -/

mutual

/-- The leaves of a chart, depth first. -/
def leaves : Chart α → List (Leaf α)
  | task t => [⟨[], t⟩]
  | group _ _ first rest => first.leaves.map (Leaf.under 0) ++ leavesFrom 1 rest

/-- The leaves of several charts, the first of which stands at position `i`. -/
def leavesFrom (i : Nat) : List (Chart α) → List (Leaf α)
  | [] => []
  | c :: cs => c.leaves.map (Leaf.under i) ++ leavesFrom (i + 1) cs

end

theorem leavesFrom_eq_flatMap (i : Nat) (cs : List (Chart α)) :
    leavesFrom i cs = (cs.zipIdx i).flatMap fun d => d.1.leaves.map (Leaf.under d.2) := by
  induction cs generalizing i with
  | nil => rfl
  | cons c cs ih => rw [leavesFrom, ih, List.zipIdx_cons, List.flatMap_cons]

/-- The leaves of a group are those of its parts, below the positions of the parts. -/
theorem leaves_group (flow : Flow) (corner : Point α) (first : Chart α) (rest : List (Chart α)) :
    (group flow corner first rest).leaves =
      (first :: rest).zipIdx.flatMap fun d => d.1.leaves.map (Leaf.under d.2) := by
  rw [leaves, leavesFrom_eq_flatMap, List.zipIdx_cons, List.flatMap_cons]

/-- A leaf of a group is a leaf of one of its parts. -/
theorem mem_leaves_group {flow : Flow} {corner : Point α} {first : Chart α}
    {rest : List (Chart α)} {l : Leaf α} :
    l ∈ (group flow corner first rest).leaves ↔
      ∃ (i : Nat) (d : Chart α), (first :: rest)[i]? = some d ∧ ∃ m ∈ d.leaves, m.under i = l := by
  rw [leaves_group, List.mem_flatMap]
  constructor
  · rintro ⟨⟨d, i⟩, hd, hl⟩
    obtain ⟨m, hm, rfl⟩ := List.mem_map.1 hl
    exact ⟨i, d, List.mem_zipIdx_iff_getElem?.1 hd, m, hm, rfl⟩
  · rintro ⟨i, d, hd, m, hm, rfl⟩
    exact ⟨(d, i), List.mem_zipIdx_iff_getElem?.2 hd, List.mem_map_of_mem hm⟩

/-- Without their paths the leaves are the tasks. -/
theorem map_task_leaves (c : Chart α) : c.leaves.map Leaf.task = c.tasks := by
  induction c using inductParts with
  | ofTask t => rfl
  | ofGroup flow corner first rest ih =>
    rw [leaves_group, tasks_group, List.map_flatMap]
    -- a position says nothing about a task, so both sides run over the parts alone
    have hpart : ∀ d ∈ (first :: rest).zipIdx,
        (d.1.leaves.map (Leaf.under d.2)).map Leaf.task = d.1.tasks := by
      rintro ⟨d, i⟩ hd
      rw [← ih d (List.mem_of_getElem? (List.mem_zipIdx_iff_getElem?.1 hd)), List.map_map]
      rfl
    rw [List.flatMap_congr hpart]
    conv_rhs => rw [← List.zipIdx_map_fst 0 (first :: rest), List.flatMap_map]

theorem leaves_ne_nil (c : Chart α) : c.leaves ≠ [] := by
  intro h
  apply c.tasks_ne_nil
  rw [← map_task_leaves, h, List.map_nil]

/-- A leaf is listed exactly if its path leads to its task. -/
theorem mem_leaves {c : Chart α} {l : Leaf α} :
    l ∈ c.leaves ↔ c.at? l.path = some (task l.task) := by
  induction c using inductParts generalizing l with
  | ofTask t =>
    obtain ⟨p, u⟩ := l
    cases p with
    | nil =>
      rw [leaves, List.mem_singleton, Leaf.mk.injEq, at?, Option.some.injEq, Chart.task.injEq]
      exact ⟨fun h => h.2.symm, fun h => ⟨rfl, h.symm⟩⟩
    | cons i p => simp [leaves, at?, parts]
  | ofGroup flow corner first rest ih =>
    rw [mem_leaves_group]
    obtain ⟨p, u⟩ := l
    constructor
    · rintro ⟨i, d, hd, m, hm, hl⟩
      obtain ⟨rfl, rfl⟩ := Leaf.mk.inj hl
      exact (at?_cons_of_part hd m.path).trans ((ih d (List.mem_of_getElem? hd)).1 hm)
    · intro h
      cases p with
      | nil => exact absurd (Option.some.inj h) (by simp)
      | cons i p =>
        rw [at?_cons] at h
        obtain ⟨d, hd, hu⟩ := Option.bind_eq_some_iff.1 h
        exact ⟨i, d, hd, ⟨p, u⟩, (ih d (List.mem_of_getElem? hd)).2 hu, rfl⟩

/-- The leaves of a chart below a position are those of the part there. -/
theorem under_mem_leaves {c d : Chart α} {i : Nat} (hd : c.parts[i]? = some d) {l : Leaf α} :
    l.under i ∈ c.leaves ↔ l ∈ d.leaves := by
  rw [mem_leaves, mem_leaves, Leaf.under, at?_cons_of_part hd]

/-- The positions of a list's elements ascend. -/
theorem pairwise_zipIdx (cs : List (Chart α)) (i : Nat) :
    (cs.zipIdx i).Pairwise fun d e => d.2 < e.2 := by
  induction cs generalizing i with
  | nil => exact List.Pairwise.nil
  | cons c cs ih =>
    rw [List.zipIdx_cons, List.pairwise_cons]
    refine ⟨fun e he => ?_, ih (i + 1)⟩
    have := List.le_snd_of_mem_zipIdx he
    show i < e.2
    omega

/-- No leaf is listed twice. -/
theorem nodup_leaves (c : Chart α) : c.leaves.Nodup := by
  induction c using inductParts with
  | ofTask t => exact List.nodup_singleton _
  | ofGroup flow corner first rest ih =>
    rw [leaves_group, List.nodup_flatMap]
    constructor
    · rintro ⟨d, i⟩ hd
      have hd' := List.mem_of_getElem? (List.mem_zipIdx_iff_getElem?.1 hd)
      exact (ih d hd').map (Leaf.under_injective i)
    -- paths into different parts differ in the first step
    · refine (pairwise_zipIdx (first :: rest) 0).imp fun {d e} hde => ?_
      intro l hl hl'
      obtain ⟨m, -, rfl⟩ := List.mem_map.1 hl
      obtain ⟨m', -, h⟩ := List.mem_map.1 hl'
      have := (List.cons.inj (Leaf.mk.inj h).1).1
      omega

end Chart

end SpanChart
