/-
  ORIGINS — where the links into a task come from, looking up from the task.

  Links are drawn one after another onto a list that all of a chart shares, and the points that a
  part is entered from change hands on the way down: a sequence hands each of its parts the exits of
  the one that it has just drawn.  `drawOnto` is that pass, with the list that is drawn on.  It says
  nothing of any single task, and what becomes of the points depends on everything that was passed
  on the way.

  From below it is simple.  Climb from a task, for as long as what you have got to is a part of a
  parallel group or the first part of a sequence.  If the climb stops, then below the second or a
  later part of a sequence, and the links into the task come from the exits of the part before.  If
  it gets to the top, they come from where the chart itself is entered (`origins`).

  The two meet in `origins_concat`: a climb that goes one step further, to the chart around, finds
  in this what it would have found in the part, were that entered from its feed.
-/
import SpanChart.Proofs.Sources

namespace SpanChart.Chart

variable {α : Type} [Scalar α]

/-! ## Drawing onto what is drawn -/

mutual

/-- Draws the links of a chart that is entered from the incoming points, each of them after all that
    is drawn already. -/
def drawOnto (incoming : List (Point α)) (drawn : List (Link α)) : Chart α → List (Link α)
  | task t => incoming.foldl (fun drawn source => drawn ++ [⟨source, t.entry⟩]) drawn
  | group .parallel _ first rest =>
    drawBesideOnto incoming (first.drawOnto incoming drawn) rest
  | group .sequential _ first rest =>
    drawAfterOnto first.exits (first.drawOnto incoming drawn) rest

/-- Draws charts one by one that are all entered from the same points. -/
def drawBesideOnto (incoming : List (Point α)) (drawn : List (Link α)) :
    List (Chart α) → List (Link α)
  | [] => drawn
  | c :: cs => drawBesideOnto incoming (c.drawOnto incoming drawn) cs

/-- Draws charts one by one each of which is entered from where the last one was left. -/
def drawAfterOnto (previous : List (Point α)) (drawn : List (Link α)) :
    List (Chart α) → List (Link α)
  | [] => drawn
  | c :: cs => drawAfterOnto c.exits (c.drawOnto previous drawn) cs

end

theorem drawBesideOnto_eq {incoming : List (Point α)} {cs : List (Chart α)}
    (hdraw : ∀ c ∈ cs, ∀ drawn, c.drawOnto incoming drawn = drawn ++ c.links incoming)
    (drawn : List (Link α)) :
    drawBesideOnto incoming drawn cs = drawn ++ linksBeside incoming cs := by
  induction cs generalizing drawn with
  | nil => exact (List.append_nil drawn).symm
  | cons c cs ih =>
    rw [drawBesideOnto, ih fun d hd => hdraw d (List.mem_cons_of_mem c hd),
      hdraw c List.mem_cons_self, linksBeside, List.append_assoc]

theorem drawAfterOnto_eq {cs : List (Chart α)}
    (hdraw : ∀ c ∈ cs, ∀ incoming drawn,
      c.drawOnto incoming drawn = drawn ++ c.links incoming)
    (previous : List (Point α)) (drawn : List (Link α)) :
    drawAfterOnto previous drawn cs = drawn ++ linksAfter previous cs := by
  induction cs generalizing previous drawn with
  | nil => exact (List.append_nil drawn).symm
  | cons c cs ih =>
    rw [drawAfterOnto, ih fun d hd => hdraw d (List.mem_cons_of_mem c hd),
      hdraw c List.mem_cons_self, linksAfter, List.append_assoc]

/-- **Drawing only adds**, and what it adds does not depend on what was there. -/
theorem drawOnto_eq (c : Chart α) (incoming : List (Point α)) (drawn : List (Link α)) :
    c.drawOnto incoming drawn = drawn ++ c.links incoming := by
  induction c using inductParts generalizing incoming drawn with
  | ofTask t =>
    rw [drawOnto, links]
    induction incoming generalizing drawn with
    | nil => exact (List.append_nil drawn).symm
    | cons source incoming ih =>
      rw [List.foldl_cons, ih, List.map_cons, List.append_assoc, List.singleton_append]
  | ofGroup flow corner first rest ih =>
    have hfirst := ih first List.mem_cons_self
    have hrest := fun c (hc : c ∈ rest) => ih c (List.mem_cons_of_mem first hc)
    cases flow with
    | parallel =>
      rw [drawOnto, links, hfirst, drawBesideOnto_eq fun c hc => hrest c hc incoming,
        List.append_assoc]
    | sequential =>
      rw [drawOnto, links, hfirst, drawAfterOnto_eq hrest, List.append_assoc]

/-! ## Climbing -/

/-- The points that something inside a chart is entered from, when the chart is entered from the
    incoming ones.  It is named by its path read upwards: its position in the group around it, then
    the position of that group, and so on to the top. -/
def origins (c : Chart α) (incoming : List (Point α)) : List Nat → List (Point α)
  | [] => incoming
  | 0 :: above => c.origins incoming above
  | (i + 1) :: above =>
    match (c.at? above.reverse).bind flow? with
    | some .sequential => ((c.at? (above.reverse ++ [i])).map exits).getD []
    | _ => c.origins incoming above

/-- At the top of a chart the climb ends with the feed of the part that it comes from. -/
theorem origins_singleton {c d : Chart α} {i : Nat} (hd : c.parts[i]? = some d)
    (incoming : List (Point α)) : c.origins incoming [i] = c.feed incoming i := by
  cases i with
  | zero =>
    have henters : c.entersBy 0 = true := by simp [entersBy]
    rw [feed, if_pos henters]
    rfl
  | succ i =>
    have hi : i < c.parts.length := by
      have := (List.getElem?_eq_some_iff.1 hd).1
      omega
    have hbefore : c.parts[i]? = some c.parts[i] := List.getElem?_eq_getElem hi
    cases c with
    | task t => exact absurd hd (by simp [parts])
    | group flow corner first rest =>
      cases flow with
      | parallel =>
        have henters : (group .parallel corner first rest).entersBy (i + 1) = true := by
          simp [entersBy, flow?]
        rw [feed, if_pos henters]
        rfl
      | sequential =>
        -- what feeds a later part of a sequence is the part before it
        rw [feed_succ rfl hbefore]
        show (((group .sequential corner first rest).at? [i]).map exits).getD [] = _
        rw [at?_cons_of_part hbefore]
        rfl

/-- **One step further up**: what a climb finds in a chart is what it finds in the part that it goes
    through, entered from its feed. -/
theorem origins_concat {c d : Chart α} {i : Nat} (hd : c.parts[i]? = some d)
    (incoming : List (Point α)) (steps : List Nat) :
    c.origins incoming (steps ++ [i]) = d.origins (c.feed incoming i) steps := by
  induction steps with
  | nil => exact origins_singleton hd incoming
  | cons j steps ih =>
    -- read downwards the path begins with the step into the part
    have hbelow : ∀ path,
        c.at? ((steps ++ [i]).reverse ++ path) = d.at? (steps.reverse ++ path) := by
      intro path
      rw [List.reverse_append, List.reverse_singleton, List.singleton_append, List.cons_append,
        at?_cons_of_part hd]
    have hhere := hbelow []
    rw [List.append_nil, List.append_nil] at hhere
    cases j with
    | zero => exact ih
    | succ j =>
      rw [List.cons_append, origins, origins, hhere, hbelow, ih]

/-- Looking up from something inside a chart and handing points down to it come to the same. -/
theorem origins_reverse {path : List Nat} {c b : Chart α} (hb : c.at? path = some b)
    (incoming : List (Point α)) :
    c.origins incoming path.reverse = c.sourcePoints incoming path := by
  induction path generalizing c incoming with
  | nil => rfl
  | cons i path ih =>
    rw [at?_cons] at hb
    obtain ⟨d, hd, hb⟩ := Option.bind_eq_some_iff.1 hb
    rw [List.reverse_cons, origins_concat hd, ih hb, sourcePoints_cons hd]

/-! ## Links by their origins -/

/-- The links into a leaf of a chart, in the order of the points they come from. -/
def linksInto (c : Chart α) (incoming : List (Point α)) (l : Leaf α) : List (Link α) :=
  (c.origins incoming l.path.reverse).map fun source => ⟨source, l.task.entry⟩

/-- **Links are drawn task by task.**  Whatever was drawn before stays in front as it was.  After it
    come the links of the chart: for every leaf in turn, which is for every task in the order in
    which the tasks are listed, those from where a climb from the leaf ends.  So the links into one
    leaf are together. -/
theorem drawOnto_eq_flatMap_linksInto (c : Chart α) (incoming : List (Point α))
    (drawn : List (Link α)) :
    c.drawOnto incoming drawn = drawn ++ c.leaves.flatMap (c.linksInto incoming) ∧
      c.links incoming = c.leaves.flatMap (c.linksInto incoming) ∧
      c.leaves.map Leaf.task = c.tasks ∧
      ∀ l ∈ c.leaves, c.linksInto incoming l <:+: c.drawOnto incoming drawn := by
  have hlinks : c.links incoming = c.leaves.flatMap (c.linksInto incoming) := by
    rw [links_eq]
    refine List.flatMap_congr fun l hl => ?_
    rw [linksInto, origins_reverse (mem_leaves.1 hl)]
  have hdrawn : c.drawOnto incoming drawn = drawn ++ c.leaves.flatMap (c.linksInto incoming) := by
    rw [drawOnto_eq, hlinks]
  refine ⟨hdrawn, hlinks, c.map_task_leaves, fun l hl => ?_⟩
  obtain ⟨before, after, hleaves⟩ := List.append_of_mem hl
  refine ⟨drawn ++ before.flatMap (c.linksInto incoming), after.flatMap (c.linksInto incoming), ?_⟩
  rw [hdrawn, hleaves, List.flatMap_append, List.flatMap_cons]
  simp only [List.append_assoc]

end SpanChart.Chart
