/-
  SEPARATION — placed tasks keep out of each other's way.

  In exact arithmetic two tasks of a placed chart are apart on the axis of the group they part at.
  If that is a sequence, the one in the earlier part lies wholly above the other; if it ran in
  parallel, wholly to its left.  Since any two tasks part somewhere, no two of their boxes overlap.

  The crux is that nothing below the group moves a task across the cursor.  The group hands its
  parts out along a cursor that only advances: everything in the rest of the row begins at the
  cursor or after it (`cursor_le_low`), and everything in a part ends where the cursor is once the
  part is done (`pairwise_row`).  Both come from containment (`reach_place`): however deep inside a
  part a task lies, and however often it is centred on the way down, it stays between the ends of
  the part.  The rest is going down to the group at which the two paths part
  (`high_le_low_of_parted`).
-/
import SpanChart.Proofs.Containment
import SpanChart.Proofs.Precedence

namespace SpanChart

/-! ## Boxes apart -/

namespace Box

/-- The point lies strictly inside the box. -/
def Encloses (b : Box) (q : Point Rat) : Prop :=
  b.left < q.x ∧ q.x < b.right ∧ b.top < q.y ∧ q.y < b.bottom

/-- Boxes of which one ends before the other begins, on whichever axis, have no inner point in
    common. -/
theorem not_encloses_of_high_le_low {f : Flow} {a b : Box} (h : a.high f ≤ b.low f)
    (q : Point Rat) : ¬(a.Encloses q ∧ b.Encloses q) := by
  rintro ⟨⟨-, haRight, -, haBottom⟩, ⟨hbLeft, -, hbTop, -⟩⟩
  cases f with
  | parallel =>
    have hx : a.right ≤ b.left := h
    linarith
  | sequential =>
    have hy : a.bottom ≤ b.top := h
    linarith

end Box

namespace Chart

/-! ## Any two tasks part -/

section Parting

variable {α : Type} [Scalar α]

/-- A leaf below a position is a leaf of the part there. -/
theorem mem_leaves_cons {c : Chart α} {i : Nat} {path : List Nat} {t : Task α} :
    (⟨i :: path, t⟩ : Leaf α) ∈ c.leaves ↔
      ∃ d, c.parts[i]? = some d ∧ (⟨path, t⟩ : Leaf α) ∈ d.leaves := by
  simp only [mem_leaves, at?_cons, Option.bind_eq_some_iff]

/-- Of two leaves the one that is listed first goes down into the earlier part where they part. -/
theorem pairwise_leaves_parted (c : Chart α) :
    c.leaves.Pairwise fun s t => ∃ flow, c.Parted flow s.path t.path := by
  induction c using inductParts with
  | ofTask t => exact List.pairwise_singleton _ _
  | ofGroup flow corner first rest ih =>
    rw [leaves_group, List.pairwise_flatMap]
    constructor
    · -- in one part they part further down
      rintro ⟨d, i⟩ hd
      have hpart : (group flow corner first rest).parts[i]? = some d :=
        List.mem_zipIdx_iff_getElem?.1 hd
      have hinner := ih d (List.mem_of_getElem? hpart)
      refine List.pairwise_map.2 (hinner.imp ?_)
      rintro s t ⟨flow', hst⟩
      exact ⟨flow', (parted_cons_self hpart).2 hst⟩
    · -- in different ones they part here
      refine (pairwise_zipIdx (first :: rest) 0).imp ?_
      rintro ⟨d, i⟩ ⟨e, j⟩ hij s hs t ht
      obtain ⟨s', -, rfl⟩ := List.mem_map.1 hs
      obtain ⟨t', -, rfl⟩ := List.mem_map.1 ht
      exact ⟨flow, parted_cons.2 (Or.inl ⟨rfl, hij⟩)⟩

end Parting

/-! ## The cursor of a row -/

/-- Everything in a row begins at the cursor or after it. -/
theorem cursor_le_low (g : Flow) (p : Point Rat) (whole : Extent Rat) (cs : List (Chart Rat))
    (cursor : Rat) :
    ∀ d ∈ placeRow g p whole cursor cs, ∀ b ∈ d.taskBoxes, cursor ≤ b.low g := by
  induction cs generalizing cursor with
  | nil => exact fun d hd => absurd hd List.not_mem_nil
  | cons c cs ih =>
    intro d hd b hb
    rw [placeRow] at hd
    rcases List.mem_cons.1 hd with rfl | hd
    · have hreach := reach_place g c (g.seat p whole c.extent cursor)
      have hlow := (hreach.inside b hb).1
      rwa [g.along_seat_self] at hlow
    · have hrest : cursor + c.lengthOn g ≤ b.low g := ih (cursor + g.length c.extent) d hd b hb
      have hlength : 0 ≤ c.lengthOn g := lengthOn_nonneg g c
      linarith

/-- Along its own axis everything in a part of a row ends before anything in a later part
    begins. -/
theorem pairwise_row (g : Flow) (p : Point Rat) (whole : Extent Rat) (cs : List (Chart Rat))
    (cursor : Rat) :
    (placeRow g p whole cursor cs).Pairwise fun d e =>
      ∀ a ∈ d.taskBoxes, ∀ b ∈ e.taskBoxes, a.high g ≤ b.low g := by
  induction cs generalizing cursor with
  | nil => exact List.Pairwise.nil
  | cons c cs ih =>
    rw [placeRow, List.pairwise_cons]
    refine ⟨fun e he a ha b hb => ?_, ih (cursor + g.length c.extent)⟩
    have hreach := reach_place g c (g.seat p whole c.extent cursor)
    have hhigh := (hreach.inside a ha).2
    rw [g.along_seat_self] at hhigh
    -- the cursor has moved on by the length of the part
    have hlow : cursor + c.lengthOn g ≤ b.low g :=
      cursor_le_low g p whole cs (cursor + g.length c.extent) e he b hb
    exact le_trans hhigh hlow

/-! ## Charts -/

/-- The box of a leaf is one of the boxes of its chart's tasks. -/
theorem box_mem_taskBoxes {c : Chart Rat} {l : Leaf Rat} (hl : l ∈ c.leaves) :
    l.task.box ∈ c.taskBoxes := by
  have htask : l.task ∈ c.tasks := by
    rw [← map_task_leaves]
    exact List.mem_map_of_mem hl
  exact List.mem_map_of_mem htask

/-- **Where two leaves part, the earlier one ends before the later one begins**, on the axis of the
    group they part at.  The induction goes down the two paths as long as they agree; at the group
    itself the row decides. -/
theorem high_le_low_of_parted {f : Flow} {c : Chart Rat} {p : Point Rat} {s t : Leaf Rat}
    (hs : s ∈ (c.place p).leaves) (ht : t ∈ (c.place p).leaves)
    (hst : (c.place p).Parted f s.path t.path) : s.task.box.high f ≤ t.task.box.low f := by
  induction c using inductParts generalizing p s t with
  | ofTask u =>
    have hpath : s.path = [] := congrArg Leaf.path (List.mem_singleton.1 hs)
    rw [hpath] at hst
    exact absurd hst not_parted_nil_left
  | ofGroup g corner first rest ih =>
    obtain ⟨i, q, j, r, hq, hr⟩ := hst.exists_cons
    obtain ⟨sp, u⟩ := s
    obtain ⟨tp, v⟩ := t
    obtain rfl : sp = i :: q := hq
    obtain rfl : tp = j :: r := hr
    obtain ⟨d, hd, hu⟩ := mem_leaves_cons.1 hs
    obtain ⟨e, he, hv⟩ := mem_leaves_cons.1 ht
    rcases parted_cons.1 hst with ⟨hflow, hij⟩ | ⟨rfl, d', hd', hqr⟩
    · -- they part here, and here is a row
      obtain rfl : g = f := by
        rw [place_group] at hflow
        exact Option.some.inj hflow
      rw [parts_place_group] at hd he
      obtain ⟨hi, rfl⟩ := List.getElem?_eq_some_iff.1 hd
      obtain ⟨hj, rfl⟩ := List.getElem?_eq_some_iff.1 he
      have hrow := pairwise_row g p (group g corner first rest).extent (first :: rest) (g.along p)
      have hubox : u.box ∈ _ := box_mem_taskBoxes hu
      have hvbox : v.box ∈ _ := box_mem_taskBoxes hv
      exact List.pairwise_iff_getElem.1 hrow i j hi hj hij _ hubox _ hvbox
    · -- they part further down, in a part that is placed as well
      obtain rfl : d = d' := Option.some.inj (hd.symm.trans hd')
      obtain rfl : d = e := Option.some.inj (hd.symm.trans he)
      rw [parts_place_group] at hd
      obtain ⟨c, r', hc, rfl⟩ := getElem?_placeRow hd
      exact ih c (List.mem_of_getElem? hc) (s := ⟨q, u⟩) (t := ⟨r, v⟩) hu hv hqr

/-- **Placed tasks are apart.**  The leaves of a placed chart are its tasks in order, each with the
    way down to it.  Of any two of them the one that is listed first lies wholly above the other if
    the two part at a sequence, wholly to the left of it if they part at a parallel group, and they
    do part at a group of one of the two kinds.  So no point lies inside the boxes of two tasks. -/
theorem placed_tasks_apart (c : Chart Rat) (p : Point Rat) :
    (c.place p).leaves.map Leaf.task = (c.place p).tasks ∧
    (c.place p).leaves.Pairwise (fun s t =>
      ((c.place p).Parted .sequential s.path t.path → s.task.box.bottom ≤ t.task.box.top) ∧
      ((c.place p).Parted .parallel s.path t.path → s.task.box.right ≤ t.task.box.left) ∧
      ∃ flow, (c.place p).Parted flow s.path t.path) ∧
    (c.place p).tasks.Pairwise
      fun t u => ∀ q : Point Rat, ¬(t.box.Encloses q ∧ u.box.Encloses q) := by
  have hparted := pairwise_leaves_parted (c.place p)
  refine ⟨map_task_leaves _, hparted.imp_of_mem ?_, ?_⟩
  · intro s t hs ht hst
    exact ⟨high_le_low_of_parted hs ht, high_le_low_of_parted hs ht, hst⟩
  · rw [← map_task_leaves, List.pairwise_map]
    refine hparted.imp_of_mem ?_
    rintro s t hs ht ⟨flow, hst⟩
    exact Box.not_encloses_of_high_le_low (high_le_low_of_parted hs ht hst)

end Chart

end SpanChart
