/-
  FINITENESS — when a drawing shows numbers only.

  A drawing multiplies what it takes from a chart by one factor for each axis.  The factor is the
  room there is over the length of the chart, unless that is nothing.  Nothing here is safe from
  being too large: not the difference of two times, not the sum of widths, not a factor, and not
  the place of a box in a chart whose width is finite.

  1. Factors.  A finite factor is small where the chart is long (`exists_kept_factor`), and nothing
     that is drawn is much further out than the chart is long.  So a finite factor makes finite
     numbers of finite numbers (`isFinite_mul_factor`); if the chart is infinitely long it makes
     nothing of them.

  2. Layouts.  The times of tasks are times of spans, so that with finite times every width is kept
     (`exists_kept_widths`).  There are at most as many tasks as two words can count, so that the
     rows are never in question (`isFinite_rows`).

  3. So the numbers of a drawing are finite exactly if the factor of the columns is and everything
     in the chart has a finite place along them (`drawing_finite_iff`).  The factor alone is not
     enough: `wideJoin` has a finite width and no room for its last lane.
-/
import SpanChart.Drawing.Svg
import SpanChart.Proofs.Covering
import SpanChart.Proofs.Growth
import SpanChart.Proofs.Locality
import SpanChart.Proofs.Nesting

namespace SpanChart

open Numeral

/-! ## The chart -/

/-- The width of a task with finite times is kept. -/
theorem Task.exists_kept_width {t : Task Float} (hstart : t.start.isFinite = true)
    (hfinish : t.finish.isFinite = true) : ∃ q, Kept t.extent.width q := by
  obtain ⟨a, ha⟩ := exists_fits hstart
  obtain ⟨b, hb⟩ := exists_fits hfinish
  obtain ⟨r, -, hr⟩ := kept_sub hb ha (le_of_fits ha hb t.ordered)
  exact ⟨r, hr⟩

/-! ## Stretching -/

namespace Scale

variable {room length : Float} {v q : ℚ}

/-- An axis that takes no room keeps its scale. -/
theorem factor_of_kept_zero (hlength : Kept length 0) : factor room length = 1 :=
  if_neg fun h => absurd (hlength.pos_iff.1 h) (lt_irrefl 0)

/-- The factor of any other axis is the quotient. -/
theorem factor_of_pos (hlength : Kept length q) (hq : 0 < q) :
    factor room length = room / length :=
  if_pos (hlength.pos_iff.2 hq)

/-- A factor is finite if the length is not too small. -/
theorem isFinite_factor (hroom : Kept room v) (hv : v ≤ 2 ^ (11 : ℤ)) (hlength : Kept length q)
    (hq : q = 0 ∨ 2 ^ (-1010 : ℤ) ≤ q) (hfinite : q < limit) :
    (factor room length).isFinite = true := by
  rcases hq with rfl | hq
  · rw [factor_of_kept_zero hlength]
    rfl
  · have hpos : 0 < q := lt_of_lt_of_le (two_zpow_pos _) hq
    rw [factor_of_pos hlength hpos]
    obtain ⟨s, hs, hkept⟩ := hroom.div hlength (lt_limit_of_le hv (by norm_num)) hfinite hpos
    refine hkept.isFinite_iff.2 (lt_limit_of_le (e := 1021) (hs.le (onGrid_two_zpow ?_) ?_) ?_)
    · norm_num
    · rw [div_le_iff₀ hpos]
      calc v ≤ 2 ^ (11 : ℤ) := hv
        _ = 2 ^ (1021 : ℤ) * 2 ^ (-1010 : ℤ) := by rw [← zpow_add₀ two_ne_zero]; norm_num
        _ ≤ 2 ^ (1021 : ℤ) * q := mul_le_mul_of_nonneg_left hq (two_zpow_pos _).le
    · norm_num

/-- **How large a finite factor is.**  The power of two that the length is below says so, and it is
    not too small a power then. -/
theorem exists_kept_factor (hroom : Kept room v) (hone : 1 ≤ v) (hv : v ≤ 2 ^ (11 : ℤ))
    (hlength : Kept length q) (hfinite : q < limit)
    (hfactor : (factor room length).isFinite = true) :
    ∃ l : ℤ, -1025 < l ∧ l < 1024 ∧ q ≤ 2 ^ (l + 1) ∧
      ∃ s, Kept (factor room length) s ∧ s < limit ∧ s ≤ 2 ^ (11 - l) := by
  rcases hlength.nonneg.eq_or_lt with rfl | hpos
  · rw [factor_of_kept_zero hlength]
    exact ⟨11, by norm_num, by norm_num, (two_zpow_pos _).le, 1, Kept.one,
      lt_limit_of_le (e := 0) (by norm_num) (by norm_num), by norm_num⟩
  · rw [factor_of_pos hlength hpos] at hfactor ⊢
    obtain ⟨s, hs, hkept⟩ := hroom.div hlength (lt_limit_of_le hv (by norm_num)) hfinite hpos
    have hslimit := hkept.isFinite_iff.1 hfactor
    -- the length is between this power of two and the next
    have hlow : (2 : ℚ) ^ Int.log 2 q ≤ q := by
      exact_mod_cast Int.zpow_log_le_self one_lt_two hpos
    have hhigh : q < 2 ^ (Int.log 2 q + 1) := by
      exact_mod_cast Int.lt_zpow_succ_log_self one_lt_two q
    generalize Int.log 2 q = l at hlow hhigh
    have hl : l < 1024 := lt_of_two_zpow_lt (lt_of_le_of_lt hlow hfinite)
    refine ⟨l, ?_, hl, hhigh.le, s, hkept, hslimit, hs.le (onGrid_two_zpow (by omega)) ?_⟩
    · by_contra hsmall
      refine absurd (hs.ge onGrid_limit ?_) (not_le.2 hslimit)
      rw [le_div_iff₀ hpos]
      calc limit * q ≤ 2 ^ (1024 : ℤ) * 2 ^ (l + 1) :=
            mul_le_mul_of_nonneg_left hhigh.le (two_zpow_pos _).le
        _ = 2 ^ (1024 + (l + 1)) := (zpow_add₀ two_ne_zero _ _).symm
        _ ≤ 2 ^ (0 : ℤ) := two_zpow_le (by omega)
        _ = 1 := zpow_zero 2
        _ ≤ v := hone
    · rw [div_le_iff₀ hpos]
      calc v ≤ 2 ^ (11 : ℤ) := hv
        _ = 2 ^ (11 - l) * 2 ^ l := by rw [← zpow_add₀ two_ne_zero, sub_add_cancel]
        _ ≤ 2 ^ (11 - l) * q := mul_le_mul_of_nonneg_left hlow (two_zpow_pos _).le

end Scale

namespace Chart

section Stretched

variable {f : Flow} {c : Chart Float} (hlevels : c.levels ≤ nestingLimit)
  (htasks : ∀ t ∈ c.tasks, ∃ q, Kept (f.length t.extent) q)

include hlevels htasks

/-- Everything that is drawn of a chart that is not too long is finite. -/
theorem isFinite_of_mem_marks {r : ℚ} (hlength : Kept (c.lengthOn f) r) (hr : r ≤ 2 ^ (1007 : ℤ)) :
    ∀ t ∈ (c.place Point.origin).tasks, ∀ x ∈ t.marks f, x.isFinite = true := by
  intro t ht x hx
  obtain ⟨q, hq, hle⟩ := exists_kept_marks (u := 970) (by norm_num) htasks hlength
    (hr.trans (two_zpow_le (by norm_num))) (lt_limit_of_le hr (by norm_num)) hlevels t ht x hx
  exact hq.isFinite_iff.2 (lt_limit_of_le hle (by norm_num))

/-- **A finite factor stretches what is finite to what is finite.** -/
theorem isFinite_mul_factor {room : Float} {v : ℚ} (hroom : Kept room v) (hone : 1 ≤ v)
    (hv : v ≤ 2 ^ (11 : ℤ)) (hfactor : (Scale.factor room (c.lengthOn f)).isFinite = true) :
    ∀ t ∈ (c.place Point.origin).tasks, ∀ x ∈ t.marks f, x.isFinite = true →
      (x * Scale.factor room (c.lengthOn f)).isFinite = true := by
  intro t ht x hx hxfinite
  obtain ⟨r, hlength⟩ := exists_kept_lengthOn htasks
  rcases lt_or_ge r limit with hfinite | hinfinite
  · obtain ⟨l, hl, hl', hr, s, hs, hslimit, hsle⟩ :=
      Scale.exists_kept_factor hroom hone hv hlength hfinite hfactor
    obtain ⟨q, hq, hle⟩ := exists_kept_marks (u := l - 36) (by omega) htasks hlength
      (hr.trans (two_zpow_le (by omega))) hfinite hlevels t ht x hx
    exact hq.isFinite_mul hs hle hsle (hq.isFinite_iff.1 hxfinite) hslimit (by omega) (by omega)
  · -- a factor of nothing makes nothing of whatever is finite
    have hpos : 0 < r := lt_of_lt_of_le (two_zpow_pos _) hinfinite
    obtain ⟨s, hs⟩ := hroom.exists_unpack_div hlength (lt_limit_of_le hv (by norm_num)) hinfinite
    rw [Scale.factor_of_pos hlength hpos]
    exact isFinite_mul_of_zero hxfinite hs

end Stretched

end Chart

/-! ## Drawings -/

section Coordinates

variable {α : Type} [Scalar α]

/-- What is drawn of a layout on one axis, before it is stretched: the lengths of the tasks, and
    where their corners and the ends of the links are. -/
def Layout.coordinates (f : Flow) (layout : Layout α) : List α :=
  (layout.chart.tasks.flatMap fun t => [f.length t.extent, f.along t.corner]) ++
    layout.links.flatMap fun l => [f.along l.source, f.along l.target]

theorem Layout.forall_coordinates_iff {P : α → Prop} {layout : Layout α} {f : Flow} :
    (∀ x ∈ layout.coordinates f, P x) ↔
      (∀ t ∈ layout.chart.tasks, P (f.length t.extent) ∧ P (f.along t.corner)) ∧
        ∀ l ∈ layout.links, P (f.along l.source) ∧ P (f.along l.target) := by
  simp only [coordinates, List.forall_mem_append, List.forall_mem_flatMap, List.forall_mem_cons,
    List.not_mem_nil, false_imp_iff, implies_true, and_true]

end Coordinates

/-- Whether a piece is no number, or a finite one. -/
def Piece.isFinite : Piece Float → Bool
  | .text _ => true
  | .number x => x.isFinite

/-- All numbers of a drawing are finite. -/
def Drawing.Finite (d : Drawing Float) : Prop := ∀ piece ∈ d.pieces, piece.isFinite = true

instance (d : Drawing Float) : Decidable d.Finite :=
  inferInstanceAs (Decidable (∀ piece ∈ d.pieces, piece.isFinite = true))

/-- **The numbers of a drawing** are those of its style and the stretched coordinates. -/
theorem Drawing.finite_ofChart_iff {style : Style Float} {layout : Layout Float} :
    (ofChart style layout.chart layout.links).Finite ↔
      (style.viewport.width.isFinite = true ∧ style.viewport.height.isFinite = true) ∧
      (layout.links ≠ [] → style.lineWidth.isFinite = true) ∧
      ∀ f, ∀ x ∈ layout.coordinates f,
        (x * Scale.factor (f.length style.viewport) (layout.chart.lengthOn f)).isFinite = true := by
  simp only [Finite, pieces, headPieces, Rect.pieces, linePieces, ofChart, rect,
    List.forall_mem_append, List.forall_mem_flatMap, List.forall_mem_cons, List.forall_mem_map,
    Piece.isFinite, true_and, and_true, List.not_mem_nil, false_imp_iff, implies_true,
    Layout.forall_coordinates_iff]
  constructor
  · rintro ⟨⟨hviewport, htasks⟩, hlinks⟩
    refine ⟨hviewport, fun hne => ?_, fun f => ?_⟩
    -- the pen is written with each line, so it is asked for only if there is one
    · obtain ⟨l, hl⟩ := List.exists_mem_of_ne_nil _ hne
      exact (hlinks l hl).2.2.2.2
    · cases f with
      | parallel =>
        exact ⟨fun t ht => ⟨(htasks t ht).1, (htasks t ht).2.2.1⟩,
          fun l hl => ⟨(hlinks l hl).1, (hlinks l hl).2.2.1⟩⟩
      | sequential =>
        exact ⟨fun t ht => ⟨(htasks t ht).2.1, (htasks t ht).2.2.2⟩,
          fun l hl => ⟨(hlinks l hl).2.1, (hlinks l hl).2.2.2.1⟩⟩
  · rintro ⟨hviewport, hpen, h⟩
    obtain ⟨hx, hx'⟩ := h .parallel
    obtain ⟨hy, hy'⟩ := h .sequential
    exact ⟨⟨hviewport, fun t ht => ⟨(hx t ht).1, (hy t ht).1, (hx t ht).2, (hy t ht).2⟩⟩,
      fun l hl => ⟨(hx' l hl).1, (hy' l hl).1, (hx' l hl).2, (hy' l hl).2,
        hpen (List.ne_nil_of_mem hl)⟩⟩

/-! ## Layouts -/

namespace Layout

/-- The least width that is stretched without fail. -/
theorem exists_kept_least : ∃ q, Kept 1e-304 q ∧ 2 ^ (-1010 : ℤ) ≤ q := by
  have hbits : (1e-304 : Float).toBits = 0xd18e3b9b374169 := by decide +kernel
  refine ⟨size 4941461262385513 (-1062), Kept.of_toBits hbits (by norm_num) rfl, ?_⟩
  calc (2 : ℚ) ^ (-1010 : ℤ) = size (2 ^ 52) (-1062) := by rw [size_two_pow]; norm_num
    _ ≤ size 4941461262385513 (-1062) := size_le_size_iff.2 (by norm_num)

/-- The greatest width that is. -/
theorem exists_kept_greatest : ∃ q, Kept 1e303 q ∧ q ≤ 2 ^ (1007 : ℤ) := by
  have hbits : (1e303 : Float).toBits = 0x7ed754e31cd072da := by decide +kernel
  exact ⟨size 6567258882077402 954, Kept.of_toBits hbits (by norm_num) rfl,
    (size_lt (k := 53) (by norm_num) 954).le⟩

/-- The room that there is for the columns of a drawing of the standard size. -/
theorem kept_columns : Kept 1920 1920 := Kept.of_halved ⟨3840, by norm_num, rfl, by norm_num⟩

/-- The room that there is for the rows. -/
theorem kept_rows : Kept 1080 1080 := Kept.of_halved ⟨2160, by norm_num, rfl, by norm_num⟩

section Finite

variable {trace : Trace Float} {layout : Layout Float} (h : ofTrace trace = .ok layout)

include h

/-- All coordinates are of tasks of the chart, and that stands at the origin. -/
theorem exists_mark_of_mem_coordinates {f : Flow} {x : Float} (hx : x ∈ layout.coordinates f) :
    ∃ t ∈ (layout.chart.place Point.origin).tasks, x ∈ t.marks f := by
  obtain ⟨c, rfl⟩ := exists_eq_ofChart h
  have hplace : (ofChart c).chart.place Point.origin = (ofChart c).chart := Chart.place_place _ _ c
  rw [hplace]
  rcases List.mem_append.1 hx with hx | hx
  · obtain ⟨t, ht, hx⟩ := List.mem_flatMap.1 hx
    refine ⟨t, ht, ?_⟩
    rcases List.mem_pair.1 hx with rfl | rfl <;> simp [Task.marks]
  · obtain ⟨l, hl, hx⟩ := List.mem_flatMap.1 hx
    obtain ⟨t, ht, u, hu, rfl⟩ := Chart.exists_tasks_of_mem_innerLinks hl
    rcases List.mem_pair.1 hx with rfl | rfl
    · exact ⟨t, ht, by simp [Task.marks]⟩
    · exact ⟨u, hu, by simp [Task.marks]⟩

theorem width_eq : layout.extent.width = layout.chart.lengthOn .parallel := by
  obtain ⟨c, rfl⟩ := exists_eq_ofChart h
  rfl

/-- A chart is nested no deeper than its trace. -/
theorem levels_le : layout.chart.levels ≤ nestingLimit := by
  have hrooted := rooted_of_check (exists_check_of_ofTrace h)
  obtain ⟨f, hlisted, hroot, hperm, hdrawn, -⟩ := exists_drawn h
  obtain ⟨s, hs, climb⟩ :=
    (Family.isGreatest_levels hrooted.named hrooted.distinct hlisted hdrawn hroot hperm).1
  obtain ⟨d, hd, climb'⟩ := hrooted.climbs s hs
  rwa [climb.length_unique hrooted.distinct climb']

/-- There are no more tasks than two words can count. -/
theorem length_tasks_lt : layout.chart.tasks.length < 2 ^ 128 := by
  have hrooted := rooted_of_check (exists_check_of_ofTrace h)
  obtain ⟨f, hlisted, -, hperm, hdrawn, -⟩ := exists_drawn h
  have hle := length_tasks_of_drawn hlisted hdrawn
  have hsize : trace.length < 2 ^ 64 := length_lt_size hrooted.named hrooted.distinct
  rw [hperm.length_eq] at hle
  calc layout.chart.tasks.length ≤ trace.length * (trace.length + 2) := hle
    _ < (trace.length + 1) * (trace.length + 1) := by ring_nf; omega
    _ ≤ 2 ^ 64 * 2 ^ 64 := Nat.mul_le_mul hsize hsize

/-- The rows are always drawn at finite places. -/
theorem isFinite_rows : ∀ x ∈ layout.coordinates .sequential,
    (x * Scale.factor 1080 (layout.chart.lengthOn .sequential)).isFinite = true := by
  have htasks : ∀ t ∈ layout.chart.tasks, ∃ q, Kept (Flow.sequential.length t.extent) q :=
    fun t _ => ⟨1, Kept.one⟩
  obtain ⟨q, hq, hone, hle⟩ := layout.chart.exists_kept_height
  -- rounding may add to the height, but it stays within the square of the number of tasks
  have hsquare : q ≤ 2 ^ (256 : ℤ) := by
    have hlength : (layout.chart.tasks.length : ℚ) ≤ 2 ^ 128 := by
      exact_mod_cast (length_tasks_lt h).le
    calc q ≤ (layout.chart.tasks.length : ℚ) ^ 2 := hle
      _ ≤ (2 ^ 128) ^ 2 := pow_le_pow_left₀ (Nat.cast_nonneg _) hlength 2
      _ = 2 ^ (256 : ℤ) := by norm_num
  have hfactor : (Scale.factor 1080 (layout.chart.lengthOn .sequential)).isFinite = true :=
    Scale.isFinite_factor kept_rows (by norm_num) hq
      (Or.inr ((zpow_le_one_of_nonpos₀ one_le_two (by norm_num)).trans hone))
      (lt_limit_of_le hsquare (by norm_num))
  intro x hx
  obtain ⟨t, ht, hmark⟩ := exists_mark_of_mem_coordinates h hx
  refine Chart.isFinite_mul_factor (levels_le h) htasks kept_rows (by norm_num) (by norm_num)
    hfactor t ht x hmark ?_
  exact Chart.isFinite_of_mem_marks (levels_le h) htasks hq
    (hsquare.trans (two_zpow_le (by norm_num))) t ht x hmark

variable (finite : ∀ s ∈ trace, s.start.isFinite = true ∧ s.finish.isFinite = true)

include finite

theorem exists_kept_widths :
    ∀ t ∈ layout.chart.tasks, ∃ q, Kept (Flow.parallel.length t.extent) q := by
  obtain ⟨f, -, -, hperm, hdrawn, -⟩ := exists_drawn h
  intro t ht
  obtain ⟨hstart, hfinish⟩ := hdrawn.times (P := fun x => x.isFinite = true)
    (fun s hs => finite s (hperm.mem_iff.1 hs)) t ht
  exact t.exists_kept_width hstart hfinish

/-- Only the columns decide whether a drawing is finite. -/
theorem finite_iff_columns :
    (Drawing.ofChart Style.standard layout.chart layout.links).Finite ↔
      (Scale.factor 1920 (layout.chart.lengthOn .parallel)).isFinite = true ∧
        ∀ x ∈ layout.coordinates .parallel, x.isFinite = true := by
  rw [Drawing.finite_ofChart_iff]
  constructor
  · rintro ⟨-, -, hall⟩
    have hcolumns : ∀ x ∈ layout.coordinates .parallel,
        (x * Scale.factor 1920 (layout.chart.lengthOn .parallel)).isFinite = true := hall .parallel
    -- a product is finite only if both factors are, and there is a column, because there is a task
    obtain ⟨t, ht⟩ := List.exists_mem_of_ne_nil _ layout.chart.tasks_ne_nil
    have hwidth : t.extent.width ∈ layout.coordinates .parallel :=
      List.mem_append_left _ (List.mem_flatMap_of_mem ht List.mem_cons_self)
    exact ⟨(isFinite_of_isFinite_mul (hcolumns _ hwidth)).2,
      fun x hx => (isFinite_of_isFinite_mul (hcolumns x hx)).1⟩
  · rintro ⟨hfactor, hcolumns⟩
    refine ⟨⟨rfl, rfl⟩, fun _ => rfl, fun flow => ?_⟩
    cases flow with
    | parallel =>
      intro x hx
      obtain ⟨t, ht, hmark⟩ := exists_mark_of_mem_coordinates h hx
      exact Chart.isFinite_mul_factor (levels_le h) (exists_kept_widths h finite) kept_columns
        (by norm_num) (by norm_num) hfactor t ht x hmark (hcolumns x hx)
    | sequential => exact isFinite_rows h

/-- A chart that is neither too short nor too long has a finite drawing. -/
theorem finite_of_kept_width {q : ℚ} (hq : Kept (layout.chart.lengthOn .parallel) q)
    (hleast : q = 0 ∨ 2 ^ (-1010 : ℤ) ≤ q) (hgreatest : q ≤ 2 ^ (1007 : ℤ)) :
    (Drawing.ofChart Style.standard layout.chart layout.links).Finite := by
  have hfinite : q < limit := lt_limit_of_le hgreatest (by norm_num)
  refine (finite_iff_columns h finite).2
    ⟨Scale.isFinite_factor kept_columns (by norm_num) hq hleast hfinite, fun x hx => ?_⟩
  obtain ⟨t, ht, hmark⟩ := exists_mark_of_mem_coordinates h hx
  exact Chart.isFinite_of_mem_marks (levels_le h) (exists_kept_widths h finite) hq hgreatest t ht x
    hmark

end Finite

/-- **When a drawing is finite.**  Where all times are finite, a drawing of the standard size has no
    infinity and no NaN in it exactly if the factor that its columns are stretched by is finite and
    everything in the chart is at a finite place along them.  It never has any if the run took no
    time, or any time from `1e-304` up to `1e303`. -/
theorem drawing_finite_iff {trace : Trace Float} {layout : Layout Float}
    (h : ofTrace trace = .ok layout)
    (finite : ∀ s ∈ trace, s.start.isFinite = true ∧ s.finish.isFinite = true) :
    let width := layout.extent.width
    let drawing := Drawing.ofChart Style.standard layout.chart layout.links
    (drawing.Finite ↔ (Scale.factor 1920 width).isFinite = true ∧
      ∀ x ∈ layout.coordinates .parallel, x.isFinite = true) ∧
    ((0 < width → 1e-304 ≤ width ∧ width ≤ 1e303) → drawing.Finite) := by
  rw [width_eq h]
  refine ⟨finite_iff_columns h finite, fun hbetween => ?_⟩
  obtain ⟨q, hq⟩ := Chart.exists_kept_lengthOn (exists_kept_widths h finite)
  rcases hq.nonneg.eq_or_lt with rfl | hpos
  · exact finite_of_kept_width h finite hq (Or.inl rfl) (two_zpow_pos _).le
  · obtain ⟨hlow, hhigh⟩ := hbetween (hq.pos_iff.2 hpos)
    obtain ⟨a, ha, hleast⟩ := exists_kept_least
    obtain ⟨b, hb, hgreatest⟩ := exists_kept_greatest
    have hqb : q ≤ b := hq.le_of_le hb (lt_limit_of_le hgreatest (by norm_num)) hhigh
    have hqlimit : q < limit := lt_limit_of_le (hqb.trans hgreatest) (by norm_num)
    exact finite_of_kept_width h finite hq
      (Or.inr (hleast.trans (ha.le_of_le hq hqlimit hlow))) (hqb.trans hgreatest)

/-- A run of two spans in turn, inside a join of two more, is drawn in finite numbers. -/
theorem drawing_finite_of_joinInTurns :
    ∃ layout, ofTrace joinInTurns = .ok layout ∧
      (Drawing.ofChart Style.standard layout.chart layout.links).Finite := by
  obtain ⟨layout, h⟩ := exists_ofTrace_joinInTurns
  have hall : (ofTrace joinInTurns).toOption.all (fun l =>
      decide (1e-304 ≤ l.extent.width ∧ l.extent.width ≤ 1e303)) = true := by decide +kernel
  simp only [h, Except.toOption, Option.all_some, decide_eq_true_eq] at hall
  exact ⟨layout, h, (drawing_finite_iff h (by decide +kernel)).2 fun _ => hall⟩

/-- A join of three lanes after another task.  The task is as wide as the largest number, and the
    join one unit of the last place narrower, because the sum of its lanes is rounded down.  The
    first lane starts half a unit from the left, and both sums from there on are rounded up. -/
def wideJoin : Trace Float :=
  [⟨1, 0, 0, 1.7976931348623157e+308, 0, ""⟩, ⟨2, 1, 0, 1.7976931348623157e+308, 0, ""⟩,
    ⟨3, 1, 0, 1.7976931348623157e+308, 0, "join"⟩, ⟨4, 3, 0, 1.7976931348623153e+308, 0, ""⟩,
    ⟨5, 3, 0, 2.9937604643020797e+292, 0, ""⟩, ⟨6, 3, 0, 0, 0, ""⟩]

/-- The width of the run is finite, and so is the factor, but its last lane has no finite place. -/
theorem wideJoin_not_finite :
    (∀ s ∈ wideJoin, s.start.isFinite = true ∧ s.finish.isFinite = true) ∧
      ∃ layout, ofTrace wideJoin = .ok layout ∧ layout.extent.width.isFinite = true ∧
        (Scale.factor 1920 layout.extent.width).isFinite = true ∧
        ¬(Drawing.ofChart Style.standard layout.chart layout.links).Finite := by
  have hsome : (ofTrace wideJoin).toOption.any (fun l => l.extent.width.isFinite &&
      (Scale.factor 1920 l.extent.width).isFinite &&
      !decide (Drawing.ofChart Style.standard l.chart l.links).Finite) = true := by
    decide +kernel
  refine ⟨by decide +kernel, ?_⟩
  cases h : ofTrace wideJoin with
  | error failure => rw [h] at hsome; cases hsome
  | ok layout =>
    simp only [h, Except.toOption, Option.any_some, Bool.and_eq_true, Bool.not_eq_true',
      decide_eq_false_iff_not] at hsome
    exact ⟨layout, rfl, hsome.1.1, hsome.1.2, hsome.2⟩

end Layout

end SpanChart
