/-
  ORDINATES — the numbers on the vertical axis.

  Downwards a chart counts rows.  A task takes one, a sequence as many as its parts together, and
  what ran in parallel as many as the tallest part; so a height is a whole number, at least one and
  at most the number of tasks (`exists_rows`).  A part of a sequence begins a whole number of rows
  below its group.  A part of a parallel group is centred, and that is where fractions come in: it
  begins lower by half of the difference of two whole numbers.  Such halves add up on the way down,
  but they stay halves, however deep the chart is: nothing but whole numbers is ever halved.

  `ordinates` lists all of these numbers, the intermediate ones as well, and `onRows_ordinates` says
  that each of them is a number of halves between the top of the chart and its bottom.
-/
import Mathlib
import SpanChart.Proofs.Connectors
import SpanChart.Proofs.Viewport

namespace SpanChart

/-! ## What comes up on the vertical axis -/

section Ordinates

variable {α : Type} [Scalar α]

/-- The vertical coordinates of a link. -/
def Link.ordinates (l : Link α) : List α := [l.source.y, l.target.y]

namespace Chart

/-- The heights that a group has while its parts are added one after another. -/
def heights (flow : Flow) (e : Extent α) (parts : List (Chart α)) : List α :=
  (parts.scanl (fun e c => flow.extend e c.extent) e).map Extent.height

theorem heights_cons (flow : Flow) (e : Extent α) (c : Chart α) (cs : List (Chart α)) :
    heights flow e (c :: cs) = e.height :: heights flow (flow.extend e c.extent) cs := by
  rw [heights, List.scanl_cons, List.map_cons]
  rfl

/-- What is left over of a height next to each part, and half of it. -/
def margins (height : α) (parts : List (Chart α)) : List α :=
  parts.flatMap fun c =>
    [height - c.extent.height, Scalar.half (height - c.extent.height)]

/-- Where a sequence has got to while its parts are put one below another. -/
def cursors (y : α) (parts : List (Chart α)) : List α :=
  parts.scanl (fun y c => y + c.extent.height) y

theorem cursors_cons (y : α) (c : Chart α) (cs : List (Chart α)) :
    cursors y (c :: cs) = y :: cursors (y + c.extent.height) cs :=
  List.scanl_cons

/-- The numbers that come up while one box is measured and its parts are put in their places. -/
def ownOrdinates : Chart α → List α
  | task t => [t.corner.y, t.extent.height]
  | group .parallel corner first rest =>
    corner.y :: heights .parallel Extent.zero (first :: rest) ++
      margins (group .parallel corner first rest).extent.height (first :: rest)
  | group .sequential corner first rest =>
    corner.y :: heights .sequential Extent.zero (first :: rest) ++ cursors corner.y (first :: rest)

/-- **The numbers on the vertical axis** that one box accounts for: its own, those of the points
    where it is entered and left, and those of the ends of its links. -/
def ordinates (c : Chart α) : List α :=
  c.ownOrdinates ++ (c.entries ++ c.exits).map Point.y ++ c.innerLinks.flatMap Link.ordinates

end Chart

end Ordinates

namespace Chart

/-! ## Heights -/

/-- A sequence is as high as its parts are together. -/
theorem height_sequential (corner : Point Rat) (first : Chart Rat) (rest : List (Chart Rat)) :
    (group .sequential corner first rest).extent.height =
      ((first :: rest).map (lengthOn .sequential)).sum :=
  lengthOn_group_self .sequential corner first rest

/-- A sum of whole numbers is whole, and bounded as they are. -/
theorem exists_sum {cs : List (Chart Rat)}
    (h : ∀ c ∈ cs, ∃ n : Nat, 1 ≤ n ∧ n ≤ c.tasks.length ∧ c.extent.height = n) :
    ∃ n : Nat, n ≤ (cs.flatMap tasks).length ∧ (cs.map (lengthOn .sequential)).sum = n := by
  induction cs with
  | nil => exact ⟨0, le_refl _, rfl⟩
  | cons c cs ih =>
    obtain ⟨m, -, hm, hheight⟩ := h c List.mem_cons_self
    obtain ⟨n, hn, hsum⟩ := ih fun d hd => h d (List.mem_cons_of_mem c hd)
    refine ⟨m + n, ?_, ?_⟩
    · rw [List.flatMap_cons, List.length_append]
      exact Nat.add_le_add hm hn
    · rw [List.map_cons, List.sum_cons, hsum, Nat.cast_add, ← hheight]
      rfl

theorem length_tasks_le {cs : List (Chart Rat)} {c : Chart Rat} (hc : c ∈ cs) :
    c.tasks.length ≤ (cs.flatMap tasks).length := by
  rw [List.length_flatMap]
  exact List.single_le_sum (fun _ _ => Nat.zero_le _) _ (List.mem_map_of_mem hc)

/-- **A height is a number of rows**, at least one and at most one for each task. -/
theorem exists_rows (c : Chart Rat) :
    ∃ n : Nat, 1 ≤ n ∧ n ≤ c.tasks.length ∧ c.extent.height = n := by
  induction c using inductParts with
  | ofTask t => exact ⟨1, le_refl 1, le_refl 1, Nat.cast_one.symm⟩
  | ofGroup flow corner first rest ih =>
    have hone : 1 ≤ (group flow corner first rest).extent.height := one_le_rows _
    cases flow with
    | parallel =>
      -- side by side, the highest part gives the height; one below another, they add up
      obtain ⟨c, hc, hheight⟩ :=
        exists_lengthOn_eq_group (f := .sequential) (g := .parallel) (by decide) corner first rest
      obtain ⟨n, hpos, hn, hrows⟩ := ih c hc
      refine ⟨n, hpos, ?_, hheight.symm.trans hrows⟩
      rw [tasks_group]
      exact le_trans hn (length_tasks_le hc)
    | sequential =>
      obtain ⟨n, hn, hsum⟩ := exists_sum ih
      have hheight := (height_sequential corner first rest).trans hsum
      rw [hheight] at hone
      refine ⟨n, by exact_mod_cast hone, ?_, hheight⟩
      rw [tasks_group]
      exact hn

theorem height_nonneg (c : Chart Rat) : 0 ≤ c.extent.height := lengthOn_nonneg .sequential c

theorem sum_heights_nonneg (cs : List (Chart Rat)) :
    0 ≤ (cs.map (lengthOn .sequential)).sum := by
  refine List.sum_nonneg fun x hx => ?_
  obtain ⟨c, -, rfl⟩ := List.mem_map.1 hx
  exact lengthOn_nonneg .sequential c

/-! ## Halves -/

/-- A whole number of halves between the top and the bottom. -/
structure OnRows (bottom y : Rat) : Prop where
  halves : ∃ k : Nat, y = k / 2
  top : 0 ≤ y
  bottom : y ≤ bottom

/-- A whole number of rows is a number of halves. -/
theorem onRows_natCast {bottom : Rat} {n : Nat} (h : (n : Rat) ≤ bottom) : OnRows bottom n :=
  ⟨⟨2 * n, by push_cast; ring⟩, Nat.cast_nonneg n, h⟩

theorem nonneg_of_halves {y : Rat} (hy : ∃ k : Nat, y = k / 2) : 0 ≤ y := by
  obtain ⟨k, rfl⟩ := hy
  positivity

/-- Going down by a whole number of rows. -/
theorem exists_halves_add {y : Rat} (hy : ∃ k : Nat, y = k / 2) (n : Nat) :
    ∃ k : Nat, y + n = k / 2 := by
  obtain ⟨k, rfl⟩ := hy
  exact ⟨k + 2 * n, by push_cast; ring⟩

/-- Going down past a chart. -/
theorem exists_halves_below {y : Rat} (hy : ∃ k : Nat, y = k / 2) (c : Chart Rat) :
    ∃ k : Nat, y + c.extent.height = k / 2 := by
  obtain ⟨n, -, -, hn⟩ := exists_rows c
  rw [hn]
  exact exists_halves_add hy n

/-! ## Boxes -/

/-- A box hangs between two heights, from a number of halves on. -/
structure Hangs (low high : Rat) (c : Chart Rat) : Prop where
  halves : ∃ k : Nat, c.corner.y = k / 2
  low : low ≤ c.corner.y
  high : c.corner.y + c.extent.height ≤ high

/-- The parts of a sequence hang one below another. -/
theorem hangs_sequential (p : Point Rat) (whole : Extent Rat) {cs : List (Chart Rat)}
    {cursor : Rat} (hcursor : ∃ k : Nat, cursor = k / 2) {d : Chart Rat}
    (hd : d ∈ placeRow .sequential p whole cursor cs) :
    Hangs cursor (cursor + (cs.map (lengthOn .sequential)).sum) d := by
  induction cs generalizing cursor with
  | nil => exact absurd hd List.not_mem_nil
  | cons c cs ih =>
    have hheight := height_nonneg c
    have hheights := sum_heights_nonneg cs
    have hlength : c.lengthOn .sequential = c.extent.height := rfl
    rw [List.map_cons, List.sum_cons, hlength]
    rw [placeRow] at hd
    rcases List.mem_cons.1 hd with rfl | hd
    · refine ⟨?_, ?_, ?_⟩
      · rw [corner_place]
        exact hcursor
      · rw [corner_place]
        exact le_refl cursor
      · rw [corner_place, extent_place]
        show cursor + c.extent.height ≤ _
        linarith
    · obtain ⟨hhalves, hlow, hhigh⟩ := ih (exists_halves_below hcursor c) hd
      have hlow : cursor + c.extent.height ≤ d.corner.y := hlow
      have hhigh : d.corner.y + d.extent.height ≤
        cursor + c.extent.height + (cs.map (lengthOn .sequential)).sum := hhigh
      exact ⟨hhalves, by linarith, by linarith⟩

/-- What is left over next to a part of a parallel group is a whole number of rows. -/
theorem exists_margin (corner : Point Rat) {first : Chart Rat} {rest : List (Chart Rat)}
    {c : Chart Rat} (hc : c ∈ first :: rest) :
    ∃ n : Nat, (group .parallel corner first rest).extent.height - c.extent.height = n := by
  obtain ⟨m, -, -, hm⟩ := exists_rows (group .parallel corner first rest)
  obtain ⟨n, -, -, hn⟩ := exists_rows c
  have hle : c.extent.height ≤ (group .parallel corner first rest).extent.height :=
    lengthOn_le_group (f := .sequential) (g := .parallel) (by decide) corner hc
  rw [hm, hn] at hle ⊢
  exact ⟨m - n, by rw [Nat.cast_sub (by exact_mod_cast hle)]⟩

/-- The parts of a parallel group hang between its ends, lower by half of what is left over. -/
theorem hangs_parallel {p : Point Rat} (hp : ∃ k : Nat, p.y = k / 2) (corner : Point Rat)
    {first : Chart Rat} {rest : List (Chart Rat)} (cursor : Rat) {d : Chart Rat}
    (hd : d ∈ placeRow .parallel p (group .parallel corner first rest).extent cursor
      (first :: rest)) :
    Hangs p.y (p.y + (group .parallel corner first rest).extent.height) d := by
  obtain ⟨c, hc, cursor', rfl⟩ := mem_placeRow hd
  obtain ⟨n, hn⟩ := exists_margin corner hc
  have hseat : (c.place (Flow.seat .parallel p (group .parallel corner first rest).extent c.extent
      cursor')).corner.y = p.y + (n : Rat) / 2 := by
    rw [corner_place, ← hn]
    rfl
  have hmargin : (0 : Rat) ≤ n := Nat.cast_nonneg n
  refine ⟨?_, ?_, ?_⟩
  · obtain ⟨k, hk⟩ := hp
    exact ⟨k + n, by rw [hseat, hk]; push_cast; ring⟩
  · rw [hseat]
    linarith
  · rw [hseat, extent_place]
    linarith

/-- **Every box hangs between the ends of the chart**, from a number of halves on. -/
theorem hangs_at? {path : List Nat} {p : Point Rat} (hp : ∃ k : Nat, p.y = k / 2)
    {c b : Chart Rat} (hb : (c.place p).at? path = some b) :
    Hangs p.y (p.y + c.extent.height) b := by
  induction path generalizing c p with
  | nil =>
    obtain rfl := Option.some.inj hb
    refine ⟨?_, ?_, ?_⟩
    · rwa [corner_place]
    · rw [corner_place]
    · rw [corner_place, extent_place]
  | cons i path ih =>
    rw [at?_cons] at hb
    obtain ⟨part, hpart, hbelow⟩ := Option.bind_eq_some_iff.1 hb
    cases c with
    | task t => exact absurd hpart (by simp [parts])
    | group flow corner first rest =>
      rw [parts_place_group] at hpart
      have hmem := List.mem_of_getElem? hpart
      have hhangs : Hangs p.y (p.y + (group flow corner first rest).extent.height) part := by
        cases flow with
        | parallel => exact hangs_parallel hp corner _ hmem
        | sequential =>
          rw [height_sequential]
          exact hangs_sequential p _ hp hmem
      -- what is below a part of the row is below that part, placed where it is
      obtain ⟨e, q, -, rfl⟩ := getElem?_placeRow hpart
      have hinner := ih (p := q) (by simpa using hhangs.halves) hbelow
      have hlow := hhangs.low
      have hhigh := hhangs.high
      rw [corner_place] at hlow
      rw [corner_place, extent_place] at hhigh
      exact ⟨hinner.halves, le_trans hlow hinner.low, le_trans hinner.high hhigh⟩

/-! ## All ordinates -/

variable {bottom : Rat}

/-- What a fold of heights starts from and goes through is no more than what it comes to. -/
theorem le_height_foldl (flow : Flow) (e : Extent Rat) (cs : List (Chart Rat)) :
    e.height ≤ (cs.foldl (fun e c => flow.extend e c.extent) e).height := by
  cases flow with
  | parallel =>
    exact (le_foldl_of_ne (f := .sequential) (g := .parallel) (by decide) cs e).1
  | sequential =>
    have hsum : (cs.foldl (fun e c => Flow.sequential.extend e c.extent) e).height =
      e.height + (cs.map (lengthOn .sequential)).sum := length_foldl_self .sequential cs e
    rw [hsum]
    exact le_add_of_nonneg_right (sum_heights_nonneg cs)

/-- A part is no higher than its group. -/
theorem height_le_group (flow : Flow) (corner : Point Rat) {first : Chart Rat}
    {rest : List (Chart Rat)} {c : Chart Rat} (hc : c ∈ first :: rest) :
    c.extent.height ≤ (group flow corner first rest).extent.height := by
  cases flow with
  | parallel => exact lengthOn_le_group (f := .sequential) (g := .parallel) (by decide) corner hc
  | sequential =>
    rw [height_sequential]
    refine List.single_le_sum (fun x hx => ?_) _ (List.mem_map_of_mem hc)
    obtain ⟨d, -, rfl⟩ := List.mem_map.1 hx
    exact lengthOn_nonneg .sequential d

theorem exists_height_extend (flow : Flow) {e : Extent Rat} (he : ∃ n : Nat, e.height = n)
    (c : Chart Rat) : ∃ n : Nat, (flow.extend e c.extent).height = n := by
  obtain ⟨m, hm⟩ := he
  obtain ⟨n, -, -, hn⟩ := exists_rows c
  cases flow with
  | parallel =>
    rcases Scalar.larger_eq_or e.height c.extent.height with h | h
    · exact ⟨m, h.trans hm⟩
    · exact ⟨n, h.trans hn⟩
  | sequential =>
    refine ⟨m + n, ?_⟩
    rw [Nat.cast_add, ← hm, ← hn]
    rfl

/-- While parts are added, the height is a whole number all the time. -/
theorem onRows_heights (flow : Flow) {e : Extent Rat} (he : ∃ n : Nat, e.height = n)
    {cs : List (Chart Rat)}
    (hbottom : (cs.foldl (fun e c => flow.extend e c.extent) e).height ≤ bottom) :
    ∀ y ∈ heights flow e cs, OnRows bottom y := by
  induction cs generalizing e with
  | nil =>
    intro y hy
    obtain rfl : y = e.height := List.mem_singleton.1 hy
    obtain ⟨n, hn⟩ := he
    rw [hn]
    exact onRows_natCast (hn ▸ hbottom)
  | cons c cs ih =>
    intro y hy
    rw [heights_cons] at hy
    rcases List.mem_cons.1 hy with rfl | hy
    · obtain ⟨n, hn⟩ := he
      have hle := le_trans (le_height_foldl flow e (c :: cs)) hbottom
      rw [hn] at hle ⊢
      exact onRows_natCast hle
    · exact ih (exists_height_extend flow he c) hbottom y hy

/-- The cursor of a sequence stops at halves only. -/
theorem onRows_cursors {y : Rat} (hy : ∃ k : Nat, y = k / 2) {cs : List (Chart Rat)}
    (hbottom : y + (cs.map (lengthOn .sequential)).sum ≤ bottom) :
    ∀ z ∈ cursors y cs, OnRows bottom z := by
  induction cs generalizing y with
  | nil =>
    intro z hz
    obtain rfl : z = y := List.mem_singleton.1 hz
    rw [List.map_nil, List.sum_nil, add_zero] at hbottom
    exact ⟨hy, nonneg_of_halves hy, hbottom⟩
  | cons c cs ih =>
    intro z hz
    have hnonneg := sum_heights_nonneg (c :: cs)
    rw [cursors_cons] at hz
    rcases List.mem_cons.1 hz with rfl | hz
    · exact ⟨hy, nonneg_of_halves hy, by linarith⟩
    · refine ih (exists_halves_below hy c) ?_ z hz
      rw [List.map_cons, List.sum_cons, ← add_assoc] at hbottom
      exact hbottom

/-- What is left over, and half of it, is a number of halves. -/
theorem onRows_margins (corner : Point Rat) {first : Chart Rat} {rest : List (Chart Rat)}
    (hbottom : (group .parallel corner first rest).extent.height ≤ bottom) :
    ∀ y ∈ margins (group .parallel corner first rest).extent.height (first :: rest),
      OnRows bottom y := by
  intro y hy
  obtain ⟨c, hc, hy⟩ := List.mem_flatMap.1 hy
  obtain ⟨n, hn⟩ := exists_margin corner hc
  have hle : (n : Rat) ≤ bottom := by
    have := height_nonneg c
    linarith
  rw [hn] at hy
  rcases List.mem_cons.1 hy with rfl | hy
  · exact onRows_natCast hle
  · obtain rfl : y = (n : Rat) / 2 := List.mem_singleton.1 hy
    have hnonneg : (0 : Rat) ≤ n := Nat.cast_nonneg n
    exact ⟨⟨n, rfl⟩, by linarith, by linarith⟩

/-- The numbers that a box itself accounts for. -/
theorem onRows_ownOrdinates {b : Chart Rat} (hb : Hangs 0 bottom b) :
    ∀ y ∈ b.ownOrdinates, OnRows bottom y := by
  have hheight : b.extent.height ≤ bottom := by
    have hlow := hb.low
    have hhigh := hb.high
    linarith
  have hcorner : OnRows bottom b.corner.y := by
    have hhigh := hb.high
    have := height_nonneg b
    exact ⟨hb.halves, hb.low, by linarith⟩
  cases b with
  -- a task has its corner and one row
  | task t =>
    intro y hy
    rcases List.mem_cons.1 hy with rfl | hy
    · exact hcorner
    · obtain rfl : y = t.extent.height := List.mem_singleton.1 hy
      have hrow : t.extent.height = (1 : Nat) := Nat.cast_one.symm
      rw [hrow]
      exact onRows_natCast (hrow ▸ hheight)
  | group flow corner first rest =>
    have hheights : ∀ y ∈ heights flow Extent.zero (first :: rest), OnRows bottom y := by
      refine onRows_heights flow ⟨0, Nat.cast_zero.symm⟩ ?_
      rw [extent_group] at hheight
      exact hheight
    cases flow with
    | parallel =>
      intro y hy
      rw [ownOrdinates, List.cons_append, List.mem_cons, List.mem_append] at hy
      rcases hy with rfl | hy | hy
      · exact hcorner
      · exact hheights y hy
      · exact onRows_margins corner hheight y hy
    | sequential =>
      intro y hy
      rw [ownOrdinates, List.cons_append, List.mem_cons, List.mem_append] at hy
      rcases hy with rfl | hy | hy
      · exact hcorner
      · exact hheights y hy
      · refine onRows_cursors hb.halves ?_ y hy
        rw [← height_sequential]
        exact hb.high

/-- A task of a chart is at the end of a path. -/
theorem exists_at?_of_mem_tasks {b : Chart Rat} {t : Task Rat} (ht : t ∈ b.tasks) :
    ∃ path, b.at? path = some (task t) := by
  rw [← map_task_leaves] at ht
  obtain ⟨l, hl, rfl⟩ := List.mem_map.1 ht
  exact ⟨l.path, mem_leaves.1 hl⟩

/-- Where a task is entered and left is on the rows, if its box hangs between the ends. -/
theorem onRows_task {t : Task Rat} (ht : Hangs 0 bottom (task t)) :
    OnRows bottom t.entry.y ∧ OnRows bottom t.exit.y := by
  have hlow : 0 ≤ t.corner.y := ht.low
  have hhigh : t.corner.y + 1 ≤ bottom := ht.high
  refine ⟨⟨ht.halves, hlow, by show t.corner.y ≤ bottom; linarith⟩, ?_, ?_, hhigh⟩
  · have hrow := exists_halves_add ht.halves 1
    rw [Nat.cast_one] at hrow
    exact hrow
  · show 0 ≤ t.corner.y + 1
    linarith

/-- **Every ordinate of a chart at the origin is on its rows.** -/
theorem onRows_ordinates {c b : Chart Rat} {path : List Nat}
    (hb : (c.place Point.origin).at? path = some b) :
    ∀ y ∈ b.ordinates, OnRows c.extent.height y := by
  have hhangs : ∀ {q d}, (c.place Point.origin).at? q = some d → Hangs 0 c.extent.height d := by
    intro q d hd
    have horigin : ∃ k : Nat, (Point.origin : Point Rat).y = k / 2 := ⟨0, by simp [Point.origin]⟩
    have hat := hangs_at? horigin hd
    have hzero : (Point.origin : Point Rat).y = 0 := rfl
    rwa [hzero, zero_add] at hat
  -- points and ends of links are those of tasks, wherever these are, so tasks will do
  have htask : ∀ t ∈ b.tasks,
      OnRows c.extent.height t.entry.y ∧ OnRows c.extent.height t.exit.y := by
    intro t ht
    obtain ⟨q, hq⟩ := exists_at?_of_mem_tasks ht
    have hat : (c.place Point.origin).at? (path ++ q) = some (task t) := by
      rw [at?_append, hb, Option.bind_some, hq]
    exact onRows_task (hhangs hat)
  have hleaf : ∀ l ∈ b.leaves, l.task ∈ b.tasks := by
    intro l hl
    rw [← map_task_leaves]
    exact List.mem_map_of_mem hl
  intro y hy
  rcases List.mem_append.1 hy with hy | hy
  · rcases List.mem_append.1 hy with hy | hy
    · exact onRows_ownOrdinates (hhangs hb) y hy
    · obtain ⟨q, hq, rfl⟩ := List.mem_map.1 hy
      rcases List.mem_append.1 hq with hq | hq
      · rw [entries_eq] at hq
        obtain ⟨l, hl, rfl⟩ := List.mem_map.1 hq
        exact (htask _ (hleaf l (List.mem_filter.1 hl).1)).1
      · rw [exits_eq] at hq
        obtain ⟨l, hl, rfl⟩ := List.mem_map.1 hq
        exact (htask _ (hleaf l (List.mem_filter.1 hl).1)).2
  · obtain ⟨l, hl, hy⟩ := List.mem_flatMap.1 hy
    obtain ⟨d, q, -, rfl⟩ := at?_place hb
    obtain ⟨t, ht, u, hu, rfl, -⟩ := ends_of_innerLinks hl
    rcases List.mem_cons.1 hy with rfl | hy
    · exact (htask t ht).2
    · obtain rfl := List.mem_singleton.1 hy
      exact (htask u hu).1

end Chart

end SpanChart
