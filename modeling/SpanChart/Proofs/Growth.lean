/-
  GROWTH — how large the coordinates of a chart get in binary64.

  In exact arithmetic a box never leaves the chart that it is in.  With rounding it does: every sum
  may come out larger than it is, and a chart nests many sums, each of which goes on from where the
  one around it has got to.  What is known of a chart is how large it is itself, so the question is
  how far beyond that a box in it can be.

  1. Lengths.  A length only grows when a box is added, and by no more than half as much again as
     it should (`exists_kept_extend`).  So a part is never longer than the group it is in
     (`exists_kept_le_group`), and the height of a chart is at most the square of the number of its
     tasks (`exists_kept_height`).

  2. Cursors.  The width of a group and the cursor in it are sums of the same numbers in the same
     order.  One starts from nothing and is known in the end, the other one starts from some place
     where the numbers may be so small that rounding decides what becomes of them.  Counted in the
     units of that place the cursor moves on by a bounded number of units nevertheless (`stride`),
     however many parts the group has, because the width has grown by a quarter of every one of
     them (`forall_placeRow_self`).

  3. Charts.  A level moves its parts on by one stride at most (`atMost_place`), and a trace is
     nested in few enough levels for all of them to fit between one power of two and the next.  So
     nothing that is drawn of a chart is further out than `2 ^ 16` times what its length is within
     (`exists_kept_marks`).
-/
import SpanChart.Proofs.Arithmetic
import SpanChart.Proofs.Axes
import SpanChart.Proofs.Levels

namespace SpanChart

/-- What is drawn of a task on one axis: how long it is, and where its corner, its entry and its
    exit are. -/
def Task.marks {α : Type} [Scalar α] (f : Flow) (t : Task α) : List α :=
  [f.length t.extent, f.along t.corner, f.along t.entry, f.along t.exit]

namespace Chart

open Numeral

/-! ## Lengths -/

section Lengths

variable {f g : Flow} {cs : List (Chart Float)} {e : Extent Float} {p : ℚ}

theorem kept_length_zero (f : Flow) : Kept (f.length (Extent.zero : Extent Float)) 0 := by
  rw [f.length_zero]
  exact Kept.zero

/-- **One box more.**  The length is no less than it was and than the box is, and no more than both
    together and the smaller of the two once more. -/
theorem exists_kept_extend (f g : Flow) {a b : Extent Float} {p q : ℚ}
    (ha : Kept (f.length a) p) (hb : Kept (f.length b) q) :
    ∃ r, Kept (f.length (g.extend a b)) r ∧ p ≤ r ∧ q ≤ r ∧ r ≤ p + q + min p q := by
  by_cases hfg : f = g
  · subst hfg
    rw [f.length_extend_self]
    obtain ⟨r, hr, hkept⟩ := ha.add hb
    exact ⟨r, hkept, hr.ge ha.onGrid (le_add_of_nonneg_right hb.nonneg),
      hr.ge hb.onGrid (le_add_of_nonneg_left ha.nonneg), hr.le_add_min ha.onGrid hb.onGrid⟩
  · rw [Flow.length_extend_of_ne hfg]
    refine ⟨max p q, ha.larger hb, le_max_left p q, le_max_right p q, ?_⟩
    have hnonneg : 0 ≤ min p q := le_min ha.nonneg hb.nonneg
    have hsum := max_add_min p q
    linarith

/-- Many boxes more. -/
theorem exists_kept_foldl (f g : Flow) (hcs : ∀ c ∈ cs, ∃ q, Kept (c.lengthOn f) q)
    (he : Kept (f.length e) p) :
    ∃ r, Kept (f.length (cs.foldl (fun e c => g.extend e c.extent) e)) r ∧ p ≤ r ∧
      ∀ c ∈ cs, ∃ q, Kept (c.lengthOn f) q ∧ q ≤ r := by
  induction cs generalizing e p with
  | nil => exact ⟨p, he, le_refl p, fun c hc => absurd hc List.not_mem_nil⟩
  | cons c cs ih =>
    obtain ⟨hc, hcs⟩ := List.forall_mem_cons.1 hcs
    obtain ⟨q, hq⟩ := hc
    obtain ⟨s, hs, hps, hqs, -⟩ := exists_kept_extend f g he hq
    obtain ⟨r, hr, hsr, hparts⟩ := ih hcs hs
    exact ⟨r, hr, hps.trans hsr, List.forall_mem_cons.2 ⟨⟨q, hq, hqs.trans hsr⟩, hparts⟩⟩

/-- Where the lengths of all tasks are kept, those of all charts are. -/
theorem exists_kept_lengthOn {c : Chart Float}
    (h : ∀ t ∈ c.tasks, ∃ q, Kept (f.length t.extent) q) : ∃ q, Kept (c.lengthOn f) q := by
  induction c using inductParts with
  | ofTask t => exact h t (List.mem_singleton_self t)
  | ofGroup flow corner first rest ih =>
    rw [tasks_group] at h
    have hparts : ∀ c ∈ first :: rest, ∃ q, Kept (c.lengthOn f) q :=
      fun c hc => ih c hc fun t ht => h t (List.mem_flatMap_of_mem hc ht)
    obtain ⟨r, hr, -⟩ := exists_kept_foldl f flow hparts (kept_length_zero f)
    rw [lengthOn, extent_group]
    exact ⟨r, hr⟩

/-- A part is not longer than the group, if the group's length is finite. -/
theorem exists_kept_le_group {corner : Point Float} {first : Chart Float}
    {rest : List (Chart Float)} {r : ℚ}
    (hparts : ∀ c ∈ first :: rest, ∃ q, Kept (c.lengthOn f) q)
    (hr : Kept ((group g corner first rest).lengthOn f) r) (hfinite : r < limit) :
    ∀ c ∈ first :: rest, ∃ q, Kept (c.lengthOn f) q ∧ q ≤ r := by
  obtain ⟨r', hr', -, hle⟩ := exists_kept_foldl f g hparts (kept_length_zero f)
  rw [← extent_group g corner] at hr'
  rwa [← hr.unique hr' hfinite] at hle

/-- The height of boxes that are no higher than the squares of their numbers of tasks. -/
theorem exists_kept_height_foldl {n : ℕ}
    (hcs : ∀ c ∈ cs, ∃ q, Kept (c.lengthOn .sequential) q ∧ q ≤ (c.tasks.length : ℚ) ^ 2)
    (he : Kept e.height p) (hp : p ≤ (n : ℚ) ^ 2) :
    ∃ r, Kept (cs.foldl (fun e c => g.extend e c.extent) e).height r ∧ p ≤ r ∧
      r ≤ ((n + (cs.flatMap tasks).length : ℕ) : ℚ) ^ 2 := by
  induction cs generalizing e p n with
  | nil => exact ⟨p, he, le_refl p, hp⟩
  | cons c cs ih =>
    obtain ⟨hc, hcs⟩ := List.forall_mem_cons.1 hcs
    obtain ⟨q, hq, hqc⟩ := hc
    obtain ⟨s, hs, hps, -, hsum⟩ := exists_kept_extend .sequential g he hq
    have hsquare : s ≤ ((n + c.tasks.length : ℕ) : ℚ) ^ 2 := by
      -- the smaller of two squares is less than twice the product
      have hmin : min p q ≤ 2 * (n * c.tasks.length) := by
        rcases le_total n c.tasks.length with hle | hle
        · have hle : (n : ℚ) ≤ c.tasks.length := by exact_mod_cast hle
          nlinarith [min_le_left p q]
        · have hle : (c.tasks.length : ℚ) ≤ n := by exact_mod_cast hle
          nlinarith [min_le_right p q]
      push_cast
      nlinarith only [hsum, hmin, hp, hqc]
    obtain ⟨r, hr, hsr, hle⟩ := ih hcs hs hsquare
    rw [List.flatMap_cons, List.length_append, ← Nat.add_assoc]
    exact ⟨r, hr, hps.trans hsr, hle⟩

/-- **The height of a chart**: one row at least, and no more than the square of the rows that its
    tasks would take one above the other. -/
theorem exists_kept_height (c : Chart Float) :
    ∃ q, Kept (c.lengthOn .sequential) q ∧ 1 ≤ q ∧ q ≤ (c.tasks.length : ℚ) ^ 2 := by
  induction c using inductParts with
  | ofTask t =>
    refine ⟨1, Kept.one, le_refl 1, ?_⟩
    rw [tasks, List.length_singleton]
    norm_num
  | ofGroup flow corner first rest ih =>
    obtain ⟨hfirst, hrest⟩ := List.forall_mem_cons.1 ih
    obtain ⟨q, hq, hone, hsquare⟩ := hfirst
    obtain ⟨s, hs, -, hqs, hsum⟩ :=
      exists_kept_extend .sequential flow (kept_length_zero .sequential) hq
    have hnonneg := hq.nonneg
    rw [zero_add, min_eq_left hnonneg, add_zero] at hsum
    obtain ⟨r, hr, hsr, hle⟩ := exists_kept_height_foldl
      (fun c hc => (hrest c hc).imp fun _ h => ⟨h.1, h.2.2⟩) hs (hsum.trans hsquare)
    rw [lengthOn, extent_group, tasks_group, List.flatMap_cons, List.length_append]
    exact ⟨r, hr, (hone.trans hqs).trans hsr, hle⟩

end Lengths

/-! ## Cursors -/

/-- By how many units a level moves its parts on at most. -/
def stride : ℕ := 2 ^ 39

theorem stride_mul (u : ℤ) : (stride : ℚ) * 2 ^ u = 4 * 2 ^ (u + 37) := by
  rw [zpow_add₀ two_ne_zero]
  norm_num [stride]
  ring

/-- The value is at most so many units `2 ^ u` beyond `2 ^ 52` of them. -/
def AtMost (u : ℤ) (k : ℕ) (x : Float) : Prop := ∃ q, Kept x q ∧ q ≤ size (2 ^ 52 + k) u

namespace AtMost

variable {u : ℤ} {k m : ℕ} {x y : Float}

theorem zero (u : ℤ) (k : ℕ) : AtMost u k 0 := ⟨0, Kept.zero, size_nonneg _ u⟩

theorem mono (h : AtMost u k x) (hkm : k ≤ m) : AtMost u m x := by
  obtain ⟨q, hq, hle⟩ := h
  exact ⟨q, hq, hle.trans (size_le_size_iff.2 (by omega))⟩

/-- What is nearest to some number of units moves a value on by that number of them. -/
theorem add {w : ℚ} {n : ℕ} (hx : AtMost u k x) (hy : Kept y w) (hu : -1074 ≤ u)
    (hw : w < (n + 1 / 2) * 2 ^ u) (hroom : k + n + 1 ≤ 2 ^ 52) : AtMost u (k + n) (x + y) := by
  obtain ⟨q, hq, hle⟩ := hx
  obtain ⟨r, hr, hsum⟩ := hq.add hy
  exact ⟨r, hsum, by rw [← Nat.add_assoc]; exact hr.le_steps hu hle hw hroom⟩

/-- A length of the chart is within one stride. -/
theorem add_stride {w : ℚ} (hx : AtMost u k x) (hy : Kept y w) (hu : -1074 ≤ u)
    (hw : w ≤ 2 ^ (u + 37)) (hroom : k + stride + 1 ≤ 2 ^ 52) : AtMost u (k + stride) (x + y) := by
  refine hx.add hy hu ?_ hroom
  have hpos := two_zpow_pos u
  have hlarge := two_zpow_pos (u + 37)
  rw [add_mul, stride_mul]
  linarith

theorem exists_kept_le (h : AtMost u k x) (hk : k ≤ 2 ^ 52) :
    ∃ q, Kept x q ∧ q ≤ 2 ^ (u + 53) := by
  obtain ⟨q, hq, hle⟩ := h
  have hsize : size (2 ^ 52 + k) u ≤ size (2 ^ 53) u := size_le_size_iff.2 (by omega)
  rw [size_two_pow] at hsize
  exact ⟨q, hq, hle.trans hsize⟩

end AtMost

/-- Four times what is small in these units is within one stride of them. -/
theorem le_stride {j : ℕ} {u : ℤ} {a : ℚ} (hj : j * 2 ^ u ≤ 4 * a) (ha : a ≤ 2 ^ (u + 37)) :
    j ≤ stride := by
  have hle : (j : ℚ) * 2 ^ u ≤ stride * 2 ^ u := by
    rw [stride_mul]
    linarith
  exact_mod_cast le_of_mul_le_mul_right hle (two_zpow_pos u)

section Rows

variable {u : ℤ} (hu : -1074 < u) {f g : Flow} {cs : List (Chart Float)} {p : Point Float}
  {whole : Extent Float} {k : ℕ} (hroom : k + stride + 1 ≤ 2 ^ 52) {r : ℚ} (hr : r ≤ 2 ^ (u + 37))
  (hfinite : r < limit) {P : Chart Float → Prop}

include hu hroom hr hfinite

/-- **The cursor of a row** stays within one stride.  The induction is on the parts, with the
    length `a` of those before and the number `j` of units that the cursor has moved on: that is
    never more than four times the length. -/
theorem forall_placeRow_self (hP : ∀ c ∈ cs, ∀ q, AtMost u (k + stride) (g.along q) → P (c.place q))
    (hcs : ∀ c ∈ cs, ∃ q, Kept (c.lengthOn g) q) {e : Extent Float} {a : ℚ}
    (he : Kept (g.length e) a)
    (hwhole : Kept (g.length (cs.foldl (fun e c => g.extend e c.extent) e)) r) {cursor : Float}
    {j : ℕ} (hcursor : AtMost u (k + j) cursor) (hj : j * 2 ^ u ≤ 4 * a) :
    ∀ d ∈ placeRow g p whole cursor cs, P d := by
  induction cs generalizing e a cursor j with
  | nil => exact fun d hd => absurd hd List.not_mem_nil
  | cons c cs ih =>
    obtain ⟨hPc, hPcs⟩ := List.forall_mem_cons.1 hP
    obtain ⟨hc, hcs⟩ := List.forall_mem_cons.1 hcs
    obtain ⟨w, hw⟩ := hc
    obtain ⟨a', ha', hsum⟩ := he.add hw
    rw [lengthOn, ← g.length_extend_self] at hsum
    have hgrow : a ≤ a' := ha'.ge he.onGrid (le_add_of_nonneg_right hw.nonneg)
    -- parts only add to a length, and that of the whole is small enough
    have hsmall : a' ≤ 2 ^ (u + 37) := by
      obtain ⟨r', hr', hle, -⟩ := exists_kept_foldl g g hcs hsum
      rw [hwhole.unique hr' hfinite] at hr
      exact hle.trans hr
    -- the part is `n` units long, give or take one, and the length has grown by as much
    obtain ⟨n, hlow, hhigh⟩ := exists_count hw.nonneg u
    have hsteps := ha'.steps_le he.onGrid hw.nonneg hu hsmall hlow
    have hj' : ((j + n : ℕ) : ℚ) * 2 ^ u ≤ 4 * a' := by
      push_cast
      linarith
    have hnext := le_stride hj' hsmall
    have hcursor' : AtMost u (k + (j + n)) (cursor + g.length c.extent) := by
      rw [← Nat.add_assoc]
      exact hcursor.add hw hu.le hhigh (by omega)
    rw [placeRow, List.forall_mem_cons]
    refine ⟨hPc _ ?_, ih hPcs hcs hsum hwhole hcursor' hj'⟩
    rw [g.along_seat_self]
    exact hcursor.mono (by omega)

/-- **What goes before a centred part** is within one stride. -/
theorem forall_placeRow_of_ne (hfg : f ≠ g) (hwhole : Kept (f.length whole) r)
    (hcs : ∀ c ∈ cs, ∃ q, Kept (c.lengthOn f) q ∧ q ≤ r) (hp : AtMost u k (f.along p))
    (hP : ∀ c ∈ cs, ∀ q, AtMost u (k + stride) (f.along q) → P (c.place q)) (cursor : Float) :
    ∀ d ∈ placeRow g p whole cursor cs, P d := by
  intro d hd
  obtain ⟨c, hc, cursor', rfl⟩ := mem_placeRow hd
  refine hP c hc _ ?_
  rw [Flow.along_seat_of_ne hfg]
  obtain ⟨q, hq, hle⟩ := hcs c hc
  obtain ⟨s, hs, hkept⟩ := kept_sub (hwhole.fits hfinite) (hq.fits (lt_of_le_of_lt hle hfinite)) hle
  have hsr : s ≤ r := hs.le hwhole.onGrid (sub_le_self r hq.nonneg)
  obtain ⟨h, hh, hhalf⟩ := hkept.half (lt_of_le_of_lt hsr hfinite)
  have hhs : h ≤ s := hh.le hkept.onGrid (half_le_self hkept.nonneg)
  exact hp.add_stride hhalf hu.le ((hhs.trans hsr).trans hr) hroom

end Rows

/-! ## Charts -/

section Placed

variable {u : ℤ} (hu : -1074 < u) {f : Flow} {c : Chart Float}
  (htasks : ∀ t ∈ c.tasks, ∃ q, Kept (f.length t.extent) q) {r : ℚ}
  (hlength : Kept (c.lengthOn f) r) (hr : r ≤ 2 ^ (u + 37)) (hfinite : r < limit)

include hu htasks hlength hr hfinite

/-- **Every level moves its parts on by one stride** at most, and no task is longer than the
    chart. -/
theorem atMost_place {n k : ℕ} (hlevels : c.levels ≤ n + 1) (hroom : k + n * stride + 1 ≤ 2 ^ 52)
    {p : Point Float} (hp : AtMost u k (f.along p)) :
    ∀ t ∈ (c.place p).tasks, AtMost u (k + n * stride) (f.along t.corner) ∧
      ∃ q, Kept (f.length t.extent) q ∧ q ≤ r := by
  induction c using inductParts generalizing p n k r with
  | ofTask t =>
    intro s hs
    obtain rfl := List.mem_singleton.1 hs
    exact ⟨hp.mono (Nat.le_add_right k _), r, hlength, le_refl r⟩
  | ofGroup g corner first rest ih =>
    rw [tasks_group] at htasks
    have htasks : ∀ c ∈ first :: rest, ∀ t ∈ c.tasks, ∃ q, Kept (f.length t.extent) q :=
      fun c hc t ht => htasks t (List.mem_flatMap_of_mem hc ht)
    have hkept : ∀ c ∈ first :: rest, ∃ q, Kept (c.lengthOn f) q :=
      fun c hc => exists_kept_lengthOn (htasks c hc)
    have hparts := exists_kept_le_group hkept hlength hfinite
    have hbelow := levels_le_succ_iff.1 hlevels
    rw [parts] at hbelow
    -- a group has a level below it
    obtain ⟨m, rfl⟩ : ∃ m, n = m + 1 :=
      Nat.exists_eq_add_one.2 (lt_of_lt_of_le first.levels_pos (hbelow first List.mem_cons_self))
    have hstrides : (m + 1) * stride = stride + m * stride := by ring
    rw [hstrides, ← Nat.add_assoc] at hroom ⊢
    have hstep : ∀ c ∈ first :: rest, ∀ q, AtMost u (k + stride) (f.along q) →
        ∀ t ∈ (c.place q).tasks, AtMost u (k + stride + m * stride) (f.along t.corner) ∧
          ∃ q, Kept (f.length t.extent) q ∧ q ≤ r := by
      intro c hc q hq t ht
      obtain ⟨s, hs, hle⟩ := hparts c hc
      obtain ⟨hcorner, x, hx, hxs⟩ := ih c hc (htasks c hc) hs (hle.trans hr)
        (lt_of_le_of_lt hle hfinite) (hbelow c hc) hroom hq t ht
      exact ⟨hcorner, x, hx, hxs.trans hle⟩
    have hrow : ∀ d ∈ placeRow g p (group g corner first rest).extent (g.along p) (first :: rest),
        ∀ t ∈ d.tasks, AtMost u (k + stride + m * stride) (f.along t.corner) ∧
          ∃ q, Kept (f.length t.extent) q ∧ q ≤ r := by
      by_cases hfg : f = g
      · subst hfg
        rw [lengthOn, extent_group] at hlength
        exact forall_placeRow_self hu (by omega) hr hfinite hstep hkept (kept_length_zero f)
          hlength (j := 0) hp (by norm_num)
      · exact forall_placeRow_of_ne hu (by omega) hr hfinite hfg hlength hparts hp hstep _
    rw [place_group, tasks_group]
    intro t ht
    obtain ⟨d, hd, ht⟩ := List.mem_flatMap.1 ht
    exact hrow d hd t ht

/-- **What is drawn of a chart** at the origin is within `2 ^ 16` times what its length is within,
    if the chart is nested no deeper than a trace may be. -/
theorem exists_kept_marks (hlevels : c.levels ≤ nestingLimit) :
    ∀ t ∈ (c.place Point.origin).tasks, ∀ x ∈ t.marks f, ∃ q, Kept x q ∧ q ≤ 2 ^ (u + 53) := by
  intro t ht
  have horigin : AtMost u 0 (f.along (Point.origin : Point Float)) := by
    cases f <;> exact AtMost.zero u 0
  obtain ⟨hcorner, w, hw, hwr⟩ := atMost_place hu htasks hlength hr hfinite (n := 4095) hlevels
    (by norm_num [stride]) horigin t ht
  have hat : ∃ q, Kept (f.along t.corner) q ∧ q ≤ 2 ^ (u + 53) :=
    hcorner.exists_kept_le (by norm_num [stride])
  -- from the corner it is no more than the task's length to any of the others
  have hmoved : ∀ {y : Float} {q : ℚ}, Kept y q → q ≤ w →
      ∃ q, Kept (f.along t.corner + y) q ∧ q ≤ 2 ^ (u + 53) := fun hy hq =>
    (hcorner.add_stride hy hu.le ((hq.trans hwr).trans hr) (by norm_num [stride])).exists_kept_le
      (by norm_num [stride])
  have hlong : ∃ q, Kept (f.length t.extent) q ∧ q ≤ 2 ^ (u + 53) :=
    ⟨w, hw, (hwr.trans hr).trans (two_zpow_le (by omega))⟩
  simp only [Task.marks, List.forall_mem_cons]
  cases f with
  | parallel =>
    obtain ⟨h, hh, hhalf⟩ := hw.half (lt_of_le_of_lt hwr hfinite)
    have hmiddle := hmoved hhalf (hh.le hw.onGrid (half_le_self hw.nonneg))
    exact ⟨hlong, hat, hmiddle, hmiddle, fun x hx => absurd hx List.not_mem_nil⟩
  | sequential =>
    exact ⟨hlong, hat, hat, hmoved hw (le_refl w), fun x hx => absurd hx List.not_mem_nil⟩

end Placed

end Chart

end SpanChart
