/-
  PLACED — what placing a chart makes of it.

  Placing gives every box a corner and changes nothing else.  The parts of a placed group stand in
  a row, and a row is its parts, one for one and in order, each of them placed on its seat.  So
  whatever does not look at corners is the same of a row and of the parts (`map_placeRow`), the
  extent to begin with (`extent_place`), and what lies at the end of a path in a placed chart is
  what lay there before, placed somewhere (`at?_place`).
-/
import SpanChart.Proofs.Leaves

namespace SpanChart.Chart

variable {α : Type} [Scalar α]

/-! ## Rows -/

theorem map_placeRow {β : Type} (read : Chart α → β) (flow : Flow) (p : Point α)
    (whole : Extent α) {cs : List (Chart α)} (hread : ∀ c ∈ cs, ∀ q, read (c.place q) = read c)
    (cursor : α) : (placeRow flow p whole cursor cs).map read = cs.map read := by
  induction cs generalizing cursor with
  | nil => rfl
  | cons c cs ih =>
    rw [placeRow, List.map_cons, List.map_cons, hread c List.mem_cons_self,
      ih fun d hd => hread d (List.mem_cons_of_mem c hd)]

/-- Every chart in a row is one of the parts, on its seat. -/
theorem mem_placeRow {flow : Flow} {p : Point α} {whole : Extent α}
    {cursor : α} {cs : List (Chart α)} {d : Chart α} (hd : d ∈ placeRow flow p whole cursor cs) :
    ∃ c ∈ cs, ∃ cursor', d = c.place (flow.seat p whole c.extent cursor') := by
  induction cs generalizing cursor with
  | nil => exact absurd hd List.not_mem_nil
  | cons c cs ih =>
    rw [placeRow] at hd
    rcases List.mem_cons.1 hd with rfl | hd
    · exact ⟨c, List.mem_cons_self, cursor, rfl⟩
    · obtain ⟨e, he, cursor', h⟩ := ih hd
      exact ⟨e, List.mem_cons_of_mem c he, cursor', h⟩

/-- Every part has a seat in the row. -/
theorem exists_mem_placeRow (flow : Flow) (p : Point α) (whole : Extent α)
    (cursor : α) {cs : List (Chart α)} {c : Chart α} (hc : c ∈ cs) :
    ∃ cursor', c.place (flow.seat p whole c.extent cursor') ∈ placeRow flow p whole cursor cs := by
  induction cs generalizing cursor with
  | nil => exact absurd hc List.not_mem_nil
  | cons d ds ih =>
    rw [placeRow]
    rcases List.mem_cons.1 hc with rfl | hc
    · exact ⟨cursor, List.mem_cons_self⟩
    · obtain ⟨cursor', h⟩ := ih (cursor + flow.length d.extent) hc
      exact ⟨cursor', List.mem_cons_of_mem _ h⟩

/-- The chart at a position of a row is the part there, in some place. -/
theorem getElem?_placeRow {flow : Flow} {p : Point α} {whole : Extent α}
    {cursor : α} {cs : List (Chart α)} {i : Nat} {d : Chart α}
    (hd : (placeRow flow p whole cursor cs)[i]? = some d) :
    ∃ c q, cs[i]? = some c ∧ d = c.place q := by
  induction cs generalizing cursor i with
  | nil => exact absurd hd (by simp [placeRow])
  | cons c cs ih =>
    rw [placeRow] at hd
    cases i with
    | zero => exact ⟨c, _, rfl, (Option.some.inj hd).symm⟩
    | succ i => exact ih hd

/-! ## Groups and what is inside -/

/-- The parts of a placed group are a row that starts at the corner. -/
theorem parts_place_group (p : Point α) (flow : Flow) (corner : Point α) (first : Chart α)
    (rest : List (Chart α)) :
    ((group flow corner first rest).place p).parts =
      placeRow flow p (group flow corner first rest).extent (flow.along p) (first :: rest) := by
  rw [place_group, placeRow]
  rfl

/-- The extent of a group depends on its parts through their extents only. -/
theorem extent_group_eq_map (flow : Flow) (corner : Point α) (first : Chart α)
    (rest : List (Chart α)) :
    (group flow corner first rest).extent =
      ((first :: rest).map extent).foldl flow.extend Extent.zero := by
  rw [extent_group, List.foldl_map]

theorem extent_place (p : Point α) (c : Chart α) : (c.place p).extent = c.extent := by
  induction c using inductParts generalizing p with
  | ofTask t => rfl
  | ofGroup flow corner first rest ih =>
    have hrow := map_placeRow extent flow p (group flow corner first rest).extent
      (fun c hc q => ih c hc q) (flow.along p)
    rw [placeRow] at hrow
    rw [place_group, extent_group_eq_map, hrow, ← extent_group_eq_map]

/-- What lies at the end of a path in a placed chart is what lay there before, in some place. -/
theorem at?_place {path : List Nat} {p : Point α} {c b : Chart α}
    (hb : (c.place p).at? path = some b) : ∃ d q, c.at? path = some d ∧ b = d.place q := by
  induction path generalizing c p with
  | nil => exact ⟨c, p, rfl, (Option.some.inj hb).symm⟩
  | cons i path ih =>
    rw [at?_cons] at hb
    obtain ⟨d, hd, hb⟩ := Option.bind_eq_some_iff.1 hb
    cases c with
    | task t => exact absurd hd (by simp [parts])
    | group flow corner first rest =>
      rw [parts_place_group] at hd
      obtain ⟨e, q, he, rfl⟩ := getElem?_placeRow hd
      obtain ⟨d', q', hd', rfl⟩ := ih hb
      exact ⟨d', q', (at?_cons_of_part he path).trans hd', rfl⟩

end SpanChart.Chart
