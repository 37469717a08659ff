/-
  AXES — extents in exact arithmetic, one axis at a time.

  A group advances on the main axis of its flow, and centres its parts on the other one.  So a flow
  also names an axis, `parallel` the horizontal and `sequential` the vertical one, and whatever is
  said of a group splits into its own axis, where lengths add up, and the other, where the longest
  part decides.  Width and height never need to be told apart after `length_extend_self` and
  `length_extend_of_ne`.

  Over the rationals the two rules have their plain meaning: the length of a group on its own axis
  is the sum of its parts' lengths (`lengthOn_group_self`), and on the other it is the largest of
  them (`lengthOn_le_group`, `exists_lengthOn_eq_group`).  The second half needs that no length is
  negative (`lengthOn_nonneg`), because the fold of a group starts from zero.
-/
import Mathlib
import SpanChart.Proofs.Placed

namespace SpanChart

variable {α : Type} [Scalar α]

/-! ## The main axis of a flow and the other one -/

namespace Flow

theorem along_seat_self (g : Flow) (p : Point α) (whole part : Extent α) (cursor : α) :
    g.along (g.seat p whole part cursor) = cursor := by
  cases g <;> rfl

theorem along_seat_of_ne {f g : Flow} (h : f ≠ g) (p : Point α) (whole part : Extent α)
    (cursor : α) :
    f.along (g.seat p whole part cursor) =
      f.along p + Scalar.half (f.length whole - f.length part) := by
  cases f <;> cases g <;> first | rfl | exact absurd rfl h

theorem length_extend_self (g : Flow) (a b : Extent α) :
    g.length (g.extend a b) = g.length a + g.length b := by
  cases g <;> rfl

theorem length_extend_of_ne {f g : Flow} (h : f ≠ g) (a b : Extent α) :
    f.length (g.extend a b) = Scalar.larger (f.length a) (f.length b) := by
  cases f <;> cases g <;> first | rfl | exact absurd rfl h

theorem length_zero (f : Flow) : f.length (Extent.zero : Extent α) = 0 := by
  cases f <;> rfl

end Flow

namespace Chart

/-- The length of a chart on the main axis of a flow. -/
def lengthOn (f : Flow) (c : Chart α) : α := f.length c.extent

/-! ## Lengths over the rationals -/

section Exact

/-- Over the rationals the larger of two numbers is their maximum. -/
theorem larger_eq_max (a b : Rat) : Scalar.larger a b = max a b := by
  by_cases h : a < b
  · rw [Scalar.larger_of_lt h, max_eq_right (le_of_lt h)]
  · rw [Scalar.larger_of_not_lt h, max_eq_left (not_lt.1 h)]

theorem length_foldl_self (g : Flow) (cs : List (Chart Rat)) (e : Extent Rat) :
    g.length (cs.foldl (fun e c => g.extend e c.extent) e) =
      g.length e + (cs.map (lengthOn g)).sum := by
  induction cs generalizing e with
  | nil => exact (add_zero _).symm
  | cons c cs ih =>
    rw [List.foldl_cons, ih, List.map_cons, List.sum_cons, g.length_extend_self, ← add_assoc]
    rfl

/-- On its own axis a group is as long as its parts together. -/
theorem lengthOn_group_self (g : Flow) (corner : Point Rat) (first : Chart Rat)
    (rest : List (Chart Rat)) :
    (group g corner first rest).lengthOn g = ((first :: rest).map (lengthOn g)).sum := by
  rw [lengthOn, extent_group, length_foldl_self, g.length_zero]
  exact zero_add _

/-- A fold by the larger of two is no less than what it starts from and what it goes over. -/
theorem le_foldl_of_ne {f g : Flow} (h : f ≠ g) (cs : List (Chart Rat)) (e : Extent Rat) :
    f.length e ≤ f.length (cs.foldl (fun e c => g.extend e c.extent) e) ∧
      ∀ c ∈ cs, c.lengthOn f ≤ f.length (cs.foldl (fun e c => g.extend e c.extent) e) := by
  induction cs generalizing e with
  | nil => exact ⟨le_refl _, fun c hc => absurd hc List.not_mem_nil⟩
  | cons c cs ih =>
    rw [List.foldl_cons]
    obtain ⟨hstart, hrest⟩ := ih (g.extend e c.extent)
    rw [Flow.length_extend_of_ne h, larger_eq_max] at hstart
    refine ⟨le_trans (le_max_left _ _) hstart, fun d hd => ?_⟩
    rcases List.mem_cons.1 hd with rfl | hd
    · exact le_trans (le_max_right _ _) hstart
    · exact hrest d hd

/-- A fold by the larger of two is what it starts from or one of what it goes over. -/
theorem foldl_of_ne_eq_or {f g : Flow} (h : f ≠ g) (cs : List (Chart Rat)) (e : Extent Rat) :
    f.length (cs.foldl (fun e c => g.extend e c.extent) e) = f.length e ∨
      ∃ c ∈ cs, f.length (cs.foldl (fun e c => g.extend e c.extent) e) = c.lengthOn f := by
  induction cs generalizing e with
  | nil => exact Or.inl rfl
  | cons c cs ih =>
    rw [List.foldl_cons]
    rcases ih (g.extend e c.extent) with hstart | ⟨d, hd, hrest⟩
    · rw [Flow.length_extend_of_ne h] at hstart
      rcases Scalar.larger_eq_or (f.length e) (f.length c.extent) with hlarger | hlarger
      · exact Or.inl (hstart.trans hlarger)
      · exact Or.inr ⟨c, List.mem_cons_self, hstart.trans hlarger⟩
    · exact Or.inr ⟨d, List.mem_cons_of_mem c hd, hrest⟩

/-- On the other axis a group is at least as long as each of its parts. -/
theorem lengthOn_le_group {f g : Flow} (h : f ≠ g) (corner : Point Rat) {first : Chart Rat}
    {rest : List (Chart Rat)} {c : Chart Rat} (hc : c ∈ first :: rest) :
    c.lengthOn f ≤ (group g corner first rest).lengthOn f := by
  rw [lengthOn.eq_def f (group g corner first rest), extent_group]
  exact (le_foldl_of_ne h (first :: rest) Extent.zero).2 c hc

/-- No chart has a negative length. -/
theorem lengthOn_nonneg (f : Flow) (c : Chart Rat) : 0 ≤ c.lengthOn f := by
  induction c using inductParts with
  | ofTask t =>
    cases f with
    | parallel => exact sub_nonneg.2 t.ordered
    | sequential => exact zero_le_one
  | ofGroup flow corner first rest ih =>
    by_cases h : f = flow
    · subst h
      rw [lengthOn_group_self]
      exact List.sum_nonneg fun x hx => by
        obtain ⟨c, hc, rfl⟩ := List.mem_map.1 hx
        exact ih c hc
    · exact le_trans (ih first List.mem_cons_self) (lengthOn_le_group h corner List.mem_cons_self)

/-- On the other axis a group is just as long as one of its parts. -/
theorem exists_lengthOn_eq_group {f g : Flow} (h : f ≠ g) (corner : Point Rat)
    (first : Chart Rat) (rest : List (Chart Rat)) :
    ∃ c ∈ first :: rest, c.lengthOn f = (group g corner first rest).lengthOn f := by
  have hfold := foldl_of_ne_eq_or h (first :: rest) Extent.zero
  rw [← extent_group g corner] at hfold
  rcases hfold with hzero | ⟨c, hc, hlength⟩
  · -- then nothing is longer than zero, and the first part is as short as that
    refine ⟨first, List.mem_cons_self, le_antisymm ?_ ?_⟩
    · exact lengthOn_le_group h corner List.mem_cons_self
    · rw [lengthOn, hzero, f.length_zero]
      exact lengthOn_nonneg f first
  · exact ⟨c, hc, hlength.symm⟩

end Exact

end Chart

end SpanChart
