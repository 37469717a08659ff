/-
  LOCALITY — placing a part changes that part, and nothing of it depends on what was done before.

  A chart may be placed as a whole, and then parts of it again, elsewhere, in any order and as often
  as one likes.  What is there at the end could depend on the whole history: a part is placed into
  a chart that holds corners from before.  It does not.  Two things are behind this, and neither
  asks anything of the arithmetic:

  * **placing forgets** — a chart looks the same wherever it stood before (`place_congr`), because
    nothing is read of it but what it was built from (`unplaced`).  So a placed chart, and every
    chart inside it, is what placing it again at its own corner makes of it
    (`place_corner_of_at?_place`);
  * **modifying a part is local** — what is at the end of another path keeps its corner
    (`corner_of_modifyAt?`), and what is below that part is what became of the part
    (`at?_append_of_modifyAt?`).
-/
import SpanChart.Chart.Links
import SpanChart.Proofs.Placed
import SpanChart.Proofs.Precedence

namespace SpanChart

variable {α : Type} [Scalar α]

namespace Chart

/-! ## What a chart was built from -/

mutual

/-- The chart as it was when it was built: with all its boxes still at the origin. -/
def unplaced : Chart α → Chart α
  | task t => task { t with corner := Point.origin }
  | group flow _ first rest => group flow Point.origin first.unplaced (unplacedAll rest)

/-- Several charts as they were when they were built. -/
def unplacedAll : List (Chart α) → List (Chart α)
  | [] => []
  | c :: cs => c.unplaced :: unplacedAll cs

end

theorem unplacedAll_eq_map (cs : List (Chart α)) : unplacedAll cs = cs.map unplaced := by
  induction cs with
  | nil => rfl
  | cons c cs ih => rw [unplacedAll, ih, List.map_cons]

theorem unplaced_group (flow : Flow) (corner : Point α) (first : Chart α)
    (rest : List (Chart α)) :
    (group flow corner first rest).unplaced =
      group flow Point.origin first.unplaced (rest.map unplaced) := by
  rw [unplaced, unplacedAll_eq_map]

theorem parts_unplaced (c : Chart α) : c.unplaced.parts = c.parts.map unplaced := by
  cases c with
  | task t => rfl
  | group flow corner first rest => rw [unplaced_group]; rfl

/-- Groups of one flow are built alike from parts that were built alike. -/
theorem unplaced_congr {c d : Chart α} (hne : c.parts ≠ []) (hflow : d.flow? = c.flow?)
    (hparts : d.parts.map unplaced = c.parts.map unplaced) : d.unplaced = c.unplaced := by
  cases c with
  | task t => exact absurd rfl hne
  | group flow corner first rest =>
    cases d with
    | task t => cases hflow
    | group flow' corner' first' rest' =>
      obtain rfl : flow' = flow := Option.some.inj hflow
      obtain ⟨hfirst, hrest⟩ := List.cons.inj hparts
      rw [unplaced_group, unplaced_group, hfirst, hrest]

theorem at?_unplaced (path : List Nat) (c : Chart α) :
    c.unplaced.at? path = (c.at? path).map unplaced := by
  induction path generalizing c with
  | nil => rfl
  | cons i path ih =>
    rw [at?_cons, at?_cons, parts_unplaced, List.getElem?_map]
    cases c.parts[i]? with
    | none => rfl
    | some d => exact ih d

theorem extent_unplaced (c : Chart α) : c.unplaced.extent = c.extent := by
  induction c using inductParts with
  | ofTask t => rfl
  | ofGroup flow corner first rest ih =>
    have hparts : ((first :: rest).map unplaced).map extent = (first :: rest).map extent := by
      rw [List.map_map]
      exact List.map_congr_left ih
    rw [List.map_cons] at hparts
    rw [unplaced_group, extent_group_eq_map, hparts, ← extent_group_eq_map]

theorem unplaced_place (p : Point α) (c : Chart α) : (c.place p).unplaced = c.unplaced := by
  induction c using inductParts generalizing p with
  | ofTask t => rfl
  | ofGroup flow corner first rest ih =>
    have hrow := map_placeRow unplaced flow p (group flow corner first rest).extent
      (fun c hc q => ih c hc q) (flow.along p)
    have hplaced : ((group flow corner first rest).place p).flow? = some flow := by
      rw [place_group]
      rfl
    refine unplaced_congr (List.cons_ne_nil first rest) hplaced ?_
    rw [parts_place_group]
    exact hrow

/-! ## Placing forgets -/

theorem placeRow_unplaced (flow : Flow) (p : Point α) (whole : Extent α) {cs : List (Chart α)}
    (hplace : ∀ c ∈ cs, ∀ q, c.unplaced.place q = c.place q) (cursor : α) :
    placeRow flow p whole cursor (cs.map unplaced) = placeRow flow p whole cursor cs := by
  induction cs generalizing cursor with
  | nil => rfl
  | cons c cs ih =>
    rw [List.map_cons, placeRow, placeRow, extent_unplaced, hplace c List.mem_cons_self,
      ih fun d hd => hplace d (List.mem_cons_of_mem c hd)]

/-- Nothing is read of a chart that is placed but what it was built from. -/
theorem place_unplaced (p : Point α) (c : Chart α) : c.unplaced.place p = c.place p := by
  induction c using inductParts generalizing p with
  | ofTask t => rfl
  | ofGroup flow corner first rest ih =>
    have hrow := placeRow_unplaced flow p (group flow corner first rest).extent
      (fun c hc q => ih c hc q) (flow.along p)
    rw [List.map_cons, placeRow, placeRow] at hrow
    obtain ⟨hfirst, hrest⟩ := List.cons.inj hrow
    have hextent := extent_unplaced (group flow corner first rest)
    rw [unplaced_group] at hextent
    rw [unplaced_group, place_group, place_group, hextent, hfirst, hrest]

/-- **Placing forgets** where a chart stood before. -/
theorem place_congr {c d : Chart α} (h : c.unplaced = d.unplaced) (p : Point α) :
    c.place p = d.place p := by
  rw [← place_unplaced p c, h, place_unplaced]

theorem place_place (p q : Point α) (c : Chart α) : (c.place q).place p = c.place p :=
  place_congr (unplaced_place q c) p

/-- Whatever lies inside a placed chart stays as it is when it is placed where it stands. -/
theorem place_corner_of_at?_place {path : List Nat} {p : Point α} {c b : Chart α}
    (hb : (c.place p).at? path = some b) : b.place b.corner = b := by
  obtain ⟨d, q, -, rfl⟩ := at?_place hb
  rw [corner_place, place_place]

/-! ## Modifying a part -/

section Modify

variable {f : Chart α → Chart α} {path q : List Nat} {c e : Chart α}

theorem modifyAt?_nil (f : Chart α → Chart α) (c : Chart α) : c.modifyAt? f [] = some (f c) := by
  cases c <;> rfl

/-- A chart of which a part further down is modified keeps its flow and its corner, and all its
    parts but the one that the path goes through. -/
theorem modifyAt?_cons {i : Nat} (he : c.modifyAt? f (i :: path) = some e) :
    ∃ part part', c.parts[i]? = some part ∧ part.modifyAt? f path = some part' ∧
      e.flow? = c.flow? ∧ e.corner = c.corner ∧ e.parts = c.parts.set i part' := by
  cases c with
  | task t => cases i <;> cases he
  | group flow corner first rest =>
    cases i with
    | zero =>
      obtain ⟨part', hpart', rfl⟩ := Option.map_eq_some_iff.1 he
      exact ⟨first, part', rfl, hpart', rfl, rfl, rfl⟩
    | succ i =>
      obtain ⟨part', hpart', rfl⟩ := Option.map_eq_some_iff.1 he
      obtain ⟨part, hpart, hpart'⟩ := Option.bind_eq_some_iff.1 hpart'
      exact ⟨part, part', hpart, hpart', rfl, rfl, rfl⟩

/-- Below the part that was modified is what became of it. -/
theorem at?_append_of_modifyAt? (he : c.modifyAt? f path = some e) (q : List Nat) :
    e.at? (path ++ q) = (c.at? path).bind fun b => (f b).at? q := by
  induction path generalizing c e with
  | nil =>
    rw [modifyAt?_nil] at he
    rw [← Option.some.inj he]
    rfl
  | cons i path ih =>
    obtain ⟨part, part', hpart, hpart', -, -, hparts⟩ := modifyAt?_cons he
    have hnew : e.parts[i]? = some part' := by
      rw [hparts, List.getElem?_set_self (List.getElem?_eq_some_iff.1 hpart).1]
    rw [List.cons_append, at?_cons_of_part hnew, at?_cons_of_part hpart]
    exact ih hpart'

/-- Whatever is not in the part that is modified keeps its corner: what is around it because a
    group's own corner is left alone, and what is beside it because the path does not go there. -/
theorem corner_of_modifyAt? (he : c.modifyAt? f path = some e) (hq : ¬path <+: q) :
    (e.at? q).map corner = (c.at? q).map corner := by
  induction path generalizing c e q with
  | nil => exact absurd List.nil_prefix hq
  | cons i path ih =>
    obtain ⟨part, part', hpart, hpart', -, hcorner, hparts⟩ := modifyAt?_cons he
    cases q with
    | nil => exact congrArg some hcorner
    | cons j q =>
      by_cases hij : i = j
      · subst hij
        have hnew : e.parts[i]? = some part' := by
          rw [hparts, List.getElem?_set_self (List.getElem?_eq_some_iff.1 hpart).1]
        rw [at?_cons_of_part hnew, at?_cons_of_part hpart]
        exact ih hpart' fun h => hq (List.cons_prefix_cons.2 ⟨rfl, h⟩)
      · rw [at?_cons, at?_cons, hparts, List.getElem?_set_ne hij]

/-- A modification that leaves alone what its part was built from leaves alone what the whole chart
    was built from. -/
theorem unplaced_of_modifyAt? (hf : ∀ b, (f b).unplaced = b.unplaced)
    (he : c.modifyAt? f path = some e) : e.unplaced = c.unplaced := by
  induction path generalizing c e with
  | nil =>
    rw [modifyAt?_nil] at he
    rw [← Option.some.inj he, hf]
  | cons i path ih =>
    obtain ⟨part, part', hpart, hpart', hflow, -, hparts⟩ := modifyAt?_cons he
    refine unplaced_congr (List.ne_nil_of_mem (List.mem_of_getElem? hpart)) hflow ?_
    have hold : (c.parts.map unplaced)[i]? = some part.unplaced := by
      rw [List.getElem?_map, hpart]
      rfl
    obtain ⟨hi, hold⟩ := List.getElem?_eq_some_iff.1 hold
    rw [hparts, List.map_set, ih hpart', ← hold, List.set_getElem_self]

/-- A part that a modification leaves as it is leaves the chart as it is. -/
theorem modifyAt?_of_fixed {b : Chart α} (hb : c.at? path = some b) (hf : f b = b) :
    c.modifyAt? f path = some c := by
  induction path generalizing c with
  | nil =>
    obtain rfl := Option.some.inj hb
    rw [modifyAt?_nil, hf]
  | cons i path ih =>
    rw [at?_cons] at hb
    obtain ⟨part, hpart, hbelow⟩ := Option.bind_eq_some_iff.1 hb
    cases c with
    | task t => exact absurd hpart (by simp [parts])
    | group flow corner first rest =>
      cases i with
      | zero =>
        obtain rfl := Option.some.inj hpart
        rw [modifyAt?, ih hbelow]
        rfl
      | succ i =>
        have hrest : rest[i]? = some part := hpart
        obtain ⟨hi, hset⟩ := List.getElem?_eq_some_iff.1 hrest
        -- the part is put back where it was taken from
        rw [modifyAt?, hrest, Option.bind_some, ih hbelow, Option.map_some, ← hset,
          List.set_getElem_self]

end Modify

/-! ## Placements one after another -/

end Chart

/-- A part of a chart is placed. -/
structure Placement (α : Type) where
  /-- Which part. -/
  path : List Nat
  /-- Where its upper left corner goes. -/
  corner : Point α

namespace Chart

/-- The chart after placements one after another, unless one of them is of a part that is not
    there. -/
def placeEach? (placements : List (Placement α)) (c : Chart α) : Option (Chart α) :=
  placements.foldlM (fun c placement => c.placeAt? placement.path placement.corner) c

/-- A placement leaves alone what the chart was built from. -/
theorem unplaced_placeAt? {path : List Nat} {p : Point α} {c d : Chart α}
    (hd : c.placeAt? path p = some d) : d.unplaced = c.unplaced :=
  unplaced_of_modifyAt? (unplaced_place p) hd

/-- However often parts were placed, the chart was built from the same. -/
theorem unplaced_placeEach? {placements : List (Placement α)} {c d : Chart α}
    (hd : c.placeEach? placements = some d) : d.unplaced = c.unplaced := by
  induction placements generalizing c with
  | nil => rw [Option.some.inj hd]
  | cons placement placements ih =>
    obtain ⟨e, he, hd⟩ := Option.bind_eq_some_iff.1 hd
    rw [ih hd, unplaced_placeAt? he]

/-- Charts that were built alike have parts at the same paths. -/
theorem isSome_at?_congr {c d : Chart α} (h : d.unplaced = c.unplaced) (path : List Nat) :
    (d.at? path).isSome = (c.at? path).isSome := by
  have hpath := congrArg (fun b => (b.at? path).isSome) h
  simpa only [at?_unplaced, Option.isSome_map] using hpath

/-- Placements can be made one after another exactly if each is of a part that is there. -/
theorem isSome_placeEach? (placements : List (Placement α)) (c : Chart α) :
    (c.placeEach? placements).isSome = placements.all fun q => (c.at? q.path).isSome := by
  induction placements generalizing c with
  | nil => rfl
  | cons placement placements ih =>
    have hsome := modifyAt?_isSome (place placement.corner) placement.path c
    show ((c.placeAt? placement.path placement.corner).bind (placeEach? placements)).isSome = _
    rw [List.all_cons, ← hsome]
    cases hd : c.modifyAt? (place placement.corner) placement.path with
    | none =>
      rw [placeAt?, hd]
      rfl
    | some d =>
      rw [placeAt?, hd, Option.bind_some, ih d, Option.isSome_some, Bool.true_and]
      exact congrArg placements.all (funext fun q => isSome_at?_congr (unplaced_placeAt? hd) q.path)

/-! ## One more placement -/

/-- What becomes of a chart when the part at the end of a path is placed at `p`: of `old`, in which
    parts may have been placed before, comes `new`.  The part was built as `part`. -/
structure Relocated (path : List Nat) (p : Point α) (part old new : Chart α) : Prop where
  /-- Whatever is not inside the part keeps its corner. -/
  elsewhere : ∀ q, ¬path <+: q → (new.at? q).map corner = (old.at? q).map corner
  /-- Corners apart nothing changes anywhere: no flow, no list of parts, nothing about a task. -/
  built : new.unplaced = old.unplaced
  /-- Nor does any extent. -/
  extents : ∀ q, (new.at? q).map extent = (old.at? q).map extent
  /-- The part is what a fresh copy of it becomes at that place. -/
  fresh : new.at? path = some (part.unplaced.place p)
  /-- From then on, placing anything inside the part where it stands changes nothing. -/
  again : ∀ q b, new.at? (path ++ q) = some b → new.placeAt? (path ++ q) b.corner = some new
  /-- Neither are there other links then, from whichever chart these are derived. -/
  links : ∀ q b, new.at? (path ++ q) = some b → ∀ r,
    ((new.placeAt? (path ++ q) b.corner).bind (at? r)).map innerLinks =
      (new.at? r).map innerLinks

theorem extent_at?_congr {c d : Chart α} (h : d.unplaced = c.unplaced) (path : List Nat) :
    (d.at? path).map extent = (c.at? path).map extent := by
  have hpath := congrArg (fun b => (b.at? path).map extent) h
  simpa only [at?_unplaced, Option.map_map, Function.comp_def, extent_unplaced] using hpath

/-- A placement does what it says and nothing else. -/
theorem relocated_of_placeAt? {path : List Nat} {p : Point α} {part old new : Chart α}
    (hpart : (old.at? path).map unplaced = some part.unplaced)
    (hnew : old.placeAt? path p = some new) : Relocated path p part old new := by
  obtain ⟨b, hb, hpart⟩ := Option.map_eq_some_iff.1 hpart
  -- below the path there is a chart that was just placed
  have hbelow : ∀ q, new.at? (path ++ q) = (b.place p).at? q := by
    intro q
    rw [at?_append_of_modifyAt? hnew, hb, Option.bind_some]
  have hagain : ∀ q d, new.at? (path ++ q) = some d →
      new.placeAt? (path ++ q) d.corner = some new := by
    intro q d hd
    have hinside : (b.place p).at? q = some d := by rw [← hbelow, hd]
    exact modifyAt?_of_fixed hd (place_corner_of_at?_place hinside)
  have hbuilt := unplaced_placeAt? hnew
  refine ⟨fun q hq => corner_of_modifyAt? hnew hq, hbuilt, extent_at?_congr hbuilt, ?_, hagain, ?_⟩
  · have hroot := hbelow []
    rw [List.append_nil] at hroot
    rw [hroot, ← hpart, place_unplaced]
    rfl
  · intro q d hd r
    rw [hagain q d hd, Option.bind_some]

/-- **Placing is local, repeatable and without a history.**  Whatever parts of a chart were placed
    before, and wherever, any part that the chart was built with can be placed; this moves boxes
    inside the part and does nothing else, the part becomes what it would have become if nothing
    had been placed before, and placing it or anything inside it again where it then stands makes
    no difference. -/
theorem placing_is_local (c : Chart α) (placements : List (Placement α)) :
    ((c.placeEach? placements).isSome = placements.all fun q => (c.at? q.path).isSome) ∧
    ∀ old, c.placeEach? placements = some old → ∀ path p part, c.at? path = some part →
      ∃ new, old.placeAt? path p = some new ∧ Relocated path p part old new := by
  refine ⟨isSome_placeEach? placements c, fun old hold path p part hpart => ?_⟩
  have hbuilt := unplaced_placeEach? hold
  have hthere : (old.placeAt? path p).isSome = true := by
    have hsome := modifyAt?_isSome (place p) path old
    rw [isSome_at?_congr hbuilt, hpart] at hsome
    exact hsome
  obtain ⟨new, hnew⟩ := Option.isSome_iff_exists.1 hthere
  refine ⟨new, hnew, relocated_of_placeAt? ?_ hnew⟩
  rw [← at?_unplaced, hbuilt, at?_unplaced, hpart]
  rfl

end Chart

end SpanChart
