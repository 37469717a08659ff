/-
  EXTREMES — the ends of the order are the ends of the chart.

  Where a chart is entered and left is found by going down it (`Chart.entries`, `Chart.exits`),
  and that never compares two tasks.  Seen from the order of the tasks it is the two ends of it:
  the tasks that nothing ran before, and the tasks that nothing ran after.

  * `partsBy` finds by one walk down two paths whether these part, so that the order can be
    decided, and a list of leaves be sifted by it;
  * `firstLeaves` and `lastLeaves` are what comes out when every leaf is held against every other
    one.  No leaf is lost that way: `firstLeaves_ne_nil`, `lastLeaves_ne_nil`;
  * the lists of points are, place by place, the points of these leaves (`ends_eq_extremes`), and
    in any chart there are some.
-/
import SpanChart.Proofs.Connectors

namespace SpanChart.Chart

variable {α : Type} [Scalar α]

/-! ## Deciding the order -/

/-- Goes down two paths side by side until they part, and says whether they do so at a group of
    the given flow and in the given order. -/
def partsBy (flow : Flow) : List Nat → List Nat → Chart α → Bool
  | i :: p, j :: q, c =>
    if i = j then c.parts[i]?.any (partsBy flow p q) else decide (c.flow? = some flow ∧ i < j)
  | _, _, _ => false

theorem partsBy_iff {flow : Flow} {p q : List Nat} {c : Chart α} :
    partsBy flow p q c = true ↔ c.Parted flow p q := by
  induction p generalizing q c with
  | nil => simp [partsBy, not_parted_nil_left]
  | cons i p ih =>
    cases q with
    | nil => simp [partsBy, not_parted_nil_right]
    | cons j q =>
      rw [partsBy, parted_cons]
      split
      case isTrue hij =>
        subst hij
        simp [Option.any_eq_true, ih]
      case isFalse hij => simp [hij]

instance (flow : Flow) (c : Chart α) (p q : List Nat) : Decidable (c.Parted flow p q) :=
  decidable_of_iff _ partsBy_iff

instance (c : Chart α) (p q : List Nat) : Decidable (c.Precedes p q) :=
  inferInstanceAs (Decidable (c.Parted .sequential p q))

/-! ## The two ends of the order -/

/-- The leaves that no leaf precedes, depth first. -/
def firstLeaves (c : Chart α) : List (Leaf α) :=
  c.leaves.filter fun l => ∀ m ∈ c.leaves, ¬c.Precedes m.path l.path

/-- The leaves that precede no leaf, depth first. -/
def lastLeaves (c : Chart α) : List (Leaf α) :=
  c.leaves.filter fun l => ∀ m ∈ c.leaves, ¬c.Precedes l.path m.path

/-- Going down the gates and comparing the leaves find the same ones. -/
theorem entryLeaves_eq_firstLeaves (c : Chart α) : c.entryLeaves = c.firstLeaves := by
  refine List.filter_congr fun l hl => ?_
  rw [Bool.eq_iff_iff, enteredAt_iff hl, decide_eq_true_iff]

theorem exitLeaves_eq_lastLeaves (c : Chart α) : c.exitLeaves = c.lastLeaves := by
  refine List.filter_congr fun l hl => ?_
  rw [Bool.eq_iff_iff, leftAt_iff hl, decide_eq_true_iff]

/-! ## There are some

  A group has a first part and a last one, so that the way down never ends at a group.
-/

theorem entries_ne_nil (c : Chart α) : c.entries ≠ [] := by
  induction c with
  | ofTask t => exact List.cons_ne_nil _ _
  | ofGroup flow corner first rest ih _ =>
    cases flow with
    | parallel =>
      rw [entries]
      exact List.append_ne_nil_of_left_ne_nil ih _
    | sequential =>
      rw [entries]
      exact ih

theorem exits_ne_nil (c : Chart α) : c.exits ≠ [] := by
  induction c using inductParts with
  | ofTask t => exact List.cons_ne_nil _ _
  | ofGroup flow corner first rest ih =>
    cases flow with
    | parallel =>
      rw [exits]
      exact List.append_ne_nil_of_left_ne_nil (ih first List.mem_cons_self) _
    | sequential =>
      rw [exits_sequential]
      exact ih _ (List.getLast_mem _)

theorem firstLeaves_ne_nil (c : Chart α) : c.firstLeaves ≠ [] := by
  intro h
  apply c.entries_ne_nil
  rw [entries_eq, entryLeaves_eq_firstLeaves, h, List.map_nil]

theorem lastLeaves_ne_nil (c : Chart α) : c.lastLeaves ≠ [] := by
  intro h
  apply c.exits_ne_nil
  rw [exits_eq, exitLeaves_eq_lastLeaves, h, List.map_nil]

/-! ## The ends of a chart -/

/-- **Where a chart is entered and left.**  Its leaves are its tasks, in order, each with the path
    that leads to it.  The entry points are the middles of the upper sides of the leaves that no
    leaf of the chart precedes, one for each and in that order; the exit points are the middles of
    the lower sides of those that precede none.  One leaf precedes another if the lowest group
    above both is a sequence and the first of them is in an earlier part of it.  No chart is
    without entry or exit points. -/
theorem ends_eq_extremes (c : Chart α) :
    c.leaves.map Leaf.task = c.tasks ∧
      (∀ l, l ∈ c.leaves ↔ c.at? l.path = some (task l.task)) ∧
      c.entries = c.firstLeaves.map (fun l =>
        ⟨l.task.corner.x + Scalar.half l.task.extent.width, l.task.corner.y⟩) ∧
      c.exits = c.lastLeaves.map (fun l =>
        ⟨l.task.corner.x + Scalar.half l.task.extent.width,
          l.task.corner.y + l.task.extent.height⟩) ∧
      c.entries ≠ [] ∧ c.exits ≠ [] := by
  refine ⟨c.map_task_leaves, fun l => mem_leaves, ?_, ?_, c.entries_ne_nil, c.exits_ne_nil⟩
  · rw [entries_eq, entryLeaves_eq_firstLeaves]
    rfl
  · rw [exits_eq, exitLeaves_eq_lastLeaves]
    rfl

/-- The lanes of a fork that is part of a sequence are its exits, and no leaf before it is. -/
example :
    let lane (n : Nat) : Chart Rat := task ⟨0, 1, 0, false, ⟨n, 1⟩, by decide⟩
    let fork := group .parallel ⟨0, 1⟩ (lane 0) [lane 1]
    (group .sequential Point.origin (lane 2) [fork]).lastLeaves.map Leaf.path =
      [[1, 0], [1, 1]] := by
  decide

end SpanChart.Chart
