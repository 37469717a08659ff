/-
  LEVELS — how deep a chart is, and how deep one has to go to go over it.

  The root of a chart is its first level, and the parts of a group are one level further down than
  the group (`levels`).  Whatever goes over a chart calls itself for the parts of what it is called
  for, and so has a call open for every level that it is down.  What that takes is not to be seen in
  a function that always ends, so here each of them is given a number of levels that it may go down
  and comes to nothing where it would have to go further: `placeWithin` and so on, which visit a
  chart in the way that `place` and so on say what comes of it.

  1. `levels_le_iff` — a chart has no more levels than there are if all paths in it are shorter.

  2. `runsWithin_iff` — with as many levels as the chart has all of them come to what they should,
     and with fewer not all do.  Linking is the one that does two things on its way: it asks every
     part of a sequence for its exits before it goes on to the next, and so has another function
     running below the level where it stands.  That goes no further down than the part it asks.
-/
import SpanChart.Chart.Links
import SpanChart.Proofs.Placed

namespace SpanChart.Chart

variable {α : Type} [Scalar α]

/-! ## Levels -/

mutual

/-- How many levels a chart has, its own the first of them. -/
def levels : Chart α → Nat
  | task _ => 1
  | group _ _ first rest => max first.levels (levelsOf rest) + 1

/-- How many levels the deepest of several charts has. -/
def levelsOf : List (Chart α) → Nat
  | [] => 0
  | c :: cs => max c.levels (levelsOf cs)

end

theorem levelsOf_eq_foldr (cs : List (Chart α)) : levelsOf cs = (cs.map levels).foldr max 0 := by
  induction cs with
  | nil => rfl
  | cons c cs ih => rw [levelsOf, ih, List.map_cons, List.foldr_cons]

theorem levelsOf_le_iff {n : Nat} {cs : List (Chart α)} :
    levelsOf cs ≤ n ↔ ∀ c ∈ cs, c.levels ≤ n := by
  induction cs with
  | nil => simp [levelsOf]
  | cons c cs ih => rw [levelsOf, Nat.max_le, ih, List.forall_mem_cons]

theorem levels_pos (c : Chart α) : 0 < c.levels := by
  cases c <;> exact Nat.succ_pos _

/-- The parts of a chart have a level less to themselves. -/
theorem levels_le_succ_iff {n : Nat} {c : Chart α} :
    c.levels ≤ n + 1 ↔ ∀ d ∈ c.parts, d.levels ≤ n := by
  cases c with
  | task t => simp [levels, parts]
  | group flow corner first rest =>
    rw [levels, Nat.succ_le_succ_iff, ← levelsOf, levelsOf_le_iff, parts]

/-- **Levels and paths.**  A chart has at most so many levels if all paths in it are shorter. -/
theorem levels_le_iff {n : Nat} {c : Chart α} :
    c.levels ≤ n ↔ ∀ path b, c.at? path = some b → path.length < n := by
  induction n generalizing c with
  -- there is no chart without levels, and none in which the empty path leads nowhere
  | zero =>
    refine iff_of_false (Nat.not_le.2 c.levels_pos) fun h => ?_
    exact absurd (h [] c rfl) (Nat.lt_irrefl 0)
  | succ n ih =>
    rw [levels_le_succ_iff]
    constructor
    · intro h path b hb
      cases path with
      | nil => exact Nat.succ_pos n
      | cons i path =>
        obtain ⟨d, hd, hb⟩ := Option.bind_eq_some_iff.1 hb
        exact Nat.succ_lt_succ (ih.1 (h d (List.mem_of_getElem? hd)) path b hb)
    · intro h d hd
      obtain ⟨i, hi⟩ := List.getElem?_of_mem hd
      refine ih.2 fun path b hb => Nat.lt_of_succ_lt_succ (h (i :: path) b ?_)
      rw [at?_cons_of_part hi, hb]

/-- Some path goes down to the last level. -/
theorem exists_deepest (c : Chart α) :
    ∃ path b, c.at? path = some b ∧ path.length + 1 = c.levels := by
  obtain ⟨n, hn⟩ := Nat.exists_eq_add_of_lt c.levels_pos
  have hdeep : ¬c.levels ≤ n := by omega
  rw [levels_le_iff] at hdeep
  push Not at hdeep
  obtain ⟨path, b, hb, hlong⟩ := hdeep
  have hshort := levels_le_iff.1 (Nat.le_refl c.levels) path b hb
  exact ⟨path, b, hb, by omega⟩

/-- A chart is as deep wherever it is placed. -/
theorem levels_place (p : Point α) (c : Chart α) : (c.place p).levels = c.levels := by
  induction c using inductParts generalizing p with
  | ofTask t => rfl
  | ofGroup flow corner first rest ih =>
    have hrow := map_placeRow levels flow p (group flow corner first rest).extent
      (fun c hc q => ih c hc q) (flow.along p)
    rw [placeRow] at hrow
    rw [place_group, levels, levels, ← levelsOf, ← levelsOf, levelsOf_eq_foldr, hrow,
      ← levelsOf_eq_foldr]

/-! ## Going over several charts -/

section Gather

variable {β : Type} {f : Chart α → Option (List β)} {cs : List (Chart α)}

/-- What several charts come to, one chart after the other, if each of them comes to anything. -/
def gather (f : Chart α → Option (List β)) : List (Chart α) → Option (List β)
  | [] => some []
  | c :: cs => do
    let here ← f c
    let there ← gather f cs
    return here ++ there

theorem gather_eq_some {g : Chart α → List β} (h : ∀ c ∈ cs, f c = some (g c)) :
    gather f cs = some (cs.flatMap g) := by
  induction cs with
  | nil => rfl
  | cons c cs ih =>
    rw [gather, h c List.mem_cons_self, ih fun d hd => h d (List.mem_cons_of_mem c hd)]
    rfl

/-- Nothing is left out. -/
theorem exists_of_gather {bs : List β} (h : gather f cs = some bs) :
    ∀ c ∈ cs, ∃ b, f c = some b := by
  induction cs generalizing bs with
  | nil => exact fun c hc => absurd hc List.not_mem_nil
  | cons c cs ih =>
    obtain ⟨here, hhere, h⟩ := Option.bind_eq_some_iff.1 h
    obtain ⟨there, hthere, -⟩ := Option.bind_eq_some_iff.1 h
    exact List.forall_mem_cons.2 ⟨⟨here, hhere⟩, ih hthere⟩

end Gather

/-- Puts charts in a row, the first of them at `cursor`.  `put` places a chart. -/
def rowBy (put : Point α → Chart α → Option (Chart α)) (flow : Flow) (p : Point α)
    (whole : Extent α) (cursor : α) : List (Chart α) → Option (List (Chart α))
  | [] => some []
  | c :: cs => do
    let part ← put (flow.seat p whole c.extent cursor) c
    let parts ← rowBy put flow p whole (cursor + flow.length c.extent) cs
    return part :: parts

theorem rowBy_eq_some {put : Point α → Chart α → Option (Chart α)} {cs : List (Chart α)}
    (h : ∀ c ∈ cs, ∀ q, put q c = some (c.place q)) (flow : Flow) (p : Point α) (whole : Extent α)
    (cursor : α) : rowBy put flow p whole cursor cs = some (placeRow flow p whole cursor cs) := by
  induction cs generalizing cursor with
  | nil => rfl
  | cons c cs ih =>
    rw [rowBy, h c List.mem_cons_self, ih fun d hd => h d (List.mem_cons_of_mem c hd)]
    rfl

/-- Links charts that run one after another, the first of them from `incoming`.  `link` links a
    chart, and `leave` finds its exits. -/
def linkInTurn (link : List (Point α) → Chart α → Option (List (Link α)))
    (leave : Chart α → Option (List (Point α))) (incoming : List (Point α)) :
    List (Chart α) → Option (List (Link α))
  | [] => some []
  | c :: cs => do
    let here ← link incoming c
    let outgoing ← leave c
    let there ← linkInTurn link leave outgoing cs
    return here ++ there

theorem linkInTurn_eq_some {link : List (Point α) → Chart α → Option (List (Link α))}
    {leave : Chart α → Option (List (Point α))} {cs : List (Chart α)}
    (hlink : ∀ c ∈ cs, ∀ incoming, link incoming c = some (c.links incoming))
    (hleave : ∀ c ∈ cs, leave c = some c.exits) (incoming : List (Point α)) :
    linkInTurn link leave incoming cs = some (linksAfter incoming cs) := by
  induction cs generalizing incoming with
  | nil => rfl
  | cons c cs ih =>
    have hrest := ih (fun d hd => hlink d (List.mem_cons_of_mem c hd))
      (fun d hd => hleave d (List.mem_cons_of_mem c hd)) c.exits
    rw [linkInTurn, hlink c List.mem_cons_self, hleave c List.mem_cons_self]
    simp only [Option.bind_eq_bind, Option.bind_some, hrest]
    rfl

/-! ## Going so many levels down -/

/-- Places a chart, going down so many levels. -/
def placeWithin : Nat → Point α → Chart α → Option (Chart α)
  | 0, _, _ => none
  | _ + 1, p, task t => some (task { t with corner := p })
  | n + 1, p, group flow corner first rest => do
    let whole := (group flow corner first rest).extent
    match ← rowBy (placeWithin n) flow p whole (flow.along p) (first :: rest) with
    | [] => none
    | part :: parts => return group flow p part parts

/-- Collects the tasks of a chart, going down so many levels. -/
def tasksWithin : Nat → Chart α → Option (List (Task α))
  | 0, _ => none
  | _ + 1, task t => some [t]
  | n + 1, group _ _ first rest => gather (tasksWithin n) (first :: rest)

/-- Finds where a chart is entered, going down so many levels. -/
def entriesWithin : Nat → Chart α → Option (List (Point α))
  | 0, _ => none
  | _ + 1, task t => some [t.entry]
  | n + 1, group .parallel _ first rest => gather (entriesWithin n) (first :: rest)
  | n + 1, group .sequential _ first _ => entriesWithin n first

/-- Finds where a chart is left, going down so many levels. -/
def exitsWithin : Nat → Chart α → Option (List (Point α))
  | 0, _ => none
  | _ + 1, task t => some [t.exit]
  | n + 1, group .parallel _ first rest => gather (exitsWithin n) (first :: rest)
  | n + 1, group .sequential _ first rest =>
    exitsWithin n ((first :: rest).getLast (List.cons_ne_nil first rest))

/-- Links a chart that is entered from the `incoming` points, going down so many levels. -/
def linksWithin : Nat → List (Point α) → Chart α → Option (List (Link α))
  | 0, _, _ => none
  | _ + 1, incoming, task t => some (incoming.map fun source => ⟨source, t.entry⟩)
  | n + 1, incoming, group .parallel _ first rest =>
    gather (linksWithin n incoming) (first :: rest)
  | n + 1, incoming, group .sequential _ first rest =>
    linkInTurn (linksWithin n) (exitsWithin n) incoming (first :: rest)

/-- Going over a chart so many levels down is enough for what is done with charts. -/
structure RunsWithin (n : Nat) (c : Chart α) : Prop where
  place : ∀ p, c.placeWithin n p = some (c.place p)
  tasks : c.tasksWithin n = some c.tasks
  entries : c.entriesWithin n = some c.entries
  exits : c.exitsWithin n = some c.exits
  links : ∀ incoming, c.linksWithin n incoming = some (c.links incoming)

theorem runsWithin_task (n : Nat) (t : Task α) : (task t).RunsWithin (n + 1) where
  place _ := rfl
  tasks := rfl
  entries := rfl
  exits := rfl
  links _ := rfl

/-- What is done with a group goes one level further down than what is done with its parts. -/
theorem runsWithin_group {n : Nat} {flow : Flow} {corner : Point α} {first : Chart α}
    {rest : List (Chart α)} (h : ∀ c ∈ first :: rest, c.RunsWithin n) :
    (group flow corner first rest).RunsWithin (n + 1) where
  -- in a sequence entries and exits are those of one part, and links need the exits of all
  place p := by
    rw [placeWithin, rowBy_eq_some (fun c hc => (h c hc).place), place_group]
    rfl
  tasks := by rw [tasksWithin, gather_eq_some fun c hc => (h c hc).tasks, tasks_group]
  entries := by
    cases flow with
    | parallel =>
      rw [entriesWithin, gather_eq_some fun c hc => (h c hc).entries, entries,
        entriesOf_eq_flatMap, List.flatMap_cons]
    | sequential => exact (h first List.mem_cons_self).entries
  exits := by
    cases flow with
    | parallel =>
      rw [exitsWithin, gather_eq_some fun c hc => (h c hc).exits, exits, exitsOf_eq_flatMap,
        List.flatMap_cons]
    | sequential =>
      rw [exitsWithin, exits_sequential]
      exact (h _ (List.getLast_mem _)).exits
  links incoming := by
    cases flow with
    | parallel =>
      rw [linksWithin, gather_eq_some fun c hc => (h c hc).links incoming, links,
        linksBeside_eq_flatMap, List.flatMap_cons]
    | sequential =>
      rw [linksWithin, linkInTurn_eq_some (fun c hc => (h c hc).links) fun c hc => (h c hc).exits]
      rfl

/-- Where all the tasks are found there is no level below. -/
theorem levels_le_of_tasksWithin {n : Nat} {c : Chart α} {ts : List (Task α)}
    (h : c.tasksWithin n = some ts) : c.levels ≤ n := by
  induction n generalizing c ts with
  | zero => cases h
  | succ n ih =>
    rw [levels_le_succ_iff]
    cases c with
    | task t => exact fun d hd => absurd hd List.not_mem_nil
    | group flow corner first rest =>
      intro d hd
      obtain ⟨ts, hts⟩ := exists_of_gather h d hd
      exact ih hts

/-- **A chart is gone over in as many levels as it has**, and not in fewer. -/
theorem runsWithin_iff {n : Nat} {c : Chart α} : c.RunsWithin n ↔ c.levels ≤ n := by
  constructor
  · exact fun h => levels_le_of_tasksWithin h.tasks
  · intro h
    induction n generalizing c with
    | zero => exact absurd h (Nat.not_le.2 c.levels_pos)
    | succ n ih =>
      rw [levels_le_succ_iff] at h
      cases c with
      | task t => exact runsWithin_task n t
      | group flow corner first rest => exact runsWithin_group fun d hd => ih (h d hd)

end SpanChart.Chart
