/-
  UNROUNDED — the vertical axis is laid out in binary64 without rounding.

  The numbers that come up on the vertical axis of a chart are halves between its top and its bottom
  (`onRows_ordinates`), and halves are what binary64 counts without rounding (`Halved`).  So a chart
  that is laid out in binary64 and the same tree laid out in exact arithmetic go down in step: box
  by box they have the same heights, they stand at the same heights, and so do all the points and
  links inside.

  Only the tree has to be the same (`SameTree`).  Times are on the other axis, and may be anything.

  Both layouts are computed by one definition, and the proof follows it once for two arithmetics:
  measuring (`halved_height`), placing (`level_place`), entering and leaving (`level_entries`,
  `level_exits`) and linking (`level_links`).  Each time a sum has to stay below the limit of
  binary64, and this is known of the exact side.
-/
import SpanChart.Proofs.Halves
import SpanChart.Proofs.Ordinates
import SpanChart.Proofs.Regrouping

namespace SpanChart.Chart

open Numeral

/-! ## Charts of one tree -/

section Boxwise

variable {α β : Type} [Scalar α] [Scalar β] {rel : Chart α → Chart β → Prop} {c : Chart α}
  {d : Chart β}

/-- Two charts have boxes at the same paths, and these are related one by one. -/
def Boxwise (rel : Chart α → Chart β → Prop) (c : Chart α) (d : Chart β) : Prop :=
  ∀ path, Option.Rel rel (c.at? path) (d.at? path)

/-- Two charts have the same tree: they are composed by the same flows. -/
def SameTree (c : Chart α) (d : Chart β) : Prop := Boxwise (fun a b => a.flow? = b.flow?) c d

theorem Boxwise.root (h : Boxwise rel c d) : rel c d := by
  have hroot := h []
  rw [at?, at?] at hroot
  cases hroot with
  | some hrel => exact hrel

theorem Boxwise.imp {rel' : Chart α → Chart β → Prop} (h : Boxwise rel c d)
    (himp : ∀ a b, rel a b → rel' a b) : Boxwise rel' c d := by
  intro path
  have hpath := h path
  generalize c.at? path = a at hpath
  generalize d.at? path = b at hpath
  cases hpath with
  | none => exact .none
  | some hrel => exact .some (himp _ _ hrel)

/-- Lists that are related position by position are related as lists. -/
theorem forall₂_of_getElem? {γ δ : Type} {rel : γ → δ → Prop} {xs : List γ} {ys : List δ}
    (h : ∀ i : Nat, Option.Rel rel xs[i]? ys[i]?) : List.Forall₂ rel xs ys := by
  induction xs generalizing ys with
  | nil =>
    cases ys with
    | nil => exact .nil
    | cons y ys => cases h 0
  | cons x xs ih =>
    cases ys with
    | nil => cases h 0
    | cons y ys =>
      cases h 0 with
      | some hrel => exact .cons hrel (ih fun i => h (i + 1))

theorem getElem?_of_forall₂ {γ δ : Type} {rel : γ → δ → Prop} {xs : List γ} {ys : List δ}
    (h : List.Forall₂ rel xs ys) (i : Nat) : Option.Rel rel xs[i]? ys[i]? := by
  induction h generalizing i with
  | nil => exact .none
  | cons hrel _ ih =>
    cases i with
    | zero => exact .some hrel
    | succ i => exact ih i

/-- Where there is something related at the end of every path, there is such a chart. -/
theorem boxwise_of_bind {a : Option (Chart α)} {b : Option (Chart β)}
    (h : ∀ path, Option.Rel rel (a.bind (at? path)) (b.bind (at? path))) :
    Option.Rel (Boxwise rel) a b := by
  have hroot := h []
  cases a with
  | none =>
    cases b with
    | none => exact .none
    | some b => cases hroot
  | some a =>
    cases b with
    | none => cases hroot
    | some b => exact .some h

/-- Inside two such charts there are such charts. -/
theorem Boxwise.below (h : Boxwise rel c d) : Boxwise (Boxwise rel) c d := by
  intro path
  refine boxwise_of_bind fun q => ?_
  rw [← at?_append, ← at?_append]
  exact h (path ++ q)

/-- The parts of two such charts are such charts. -/
theorem Boxwise.parts (h : Boxwise rel c d) : List.Forall₂ (Boxwise rel) c.parts d.parts :=
  forall₂_of_getElem? fun i => boxwise_of_bind fun path => h (i :: path)

/-- Two charts are related box by box if they are related themselves and their parts are. -/
theorem boxwise_of_parts (hroot : rel c d) (h : List.Forall₂ (Boxwise rel) c.parts d.parts) :
    Boxwise rel c d := by
  intro path
  cases path with
  | nil => exact .some hroot
  | cons i path =>
    have hi := getElem?_of_forall₂ h i
    rw [at?_cons, at?_cons]
    generalize c.parts[i]? = a at hi
    generalize d.parts[i]? = b at hi
    cases hi with
    | none => exact .none
    | some hrel => exact hrel path

/-- What follows for the elements that are really there. -/
theorem forall₂_of_mem {γ δ : Type} {rel rel' : γ → δ → Prop} {xs : List γ} {ys : List δ}
    (h : List.Forall₂ rel xs ys) (himp : ∀ x, ∀ y ∈ ys, rel x y → rel' x y) :
    List.Forall₂ rel' xs ys := by
  induction h with
  | nil => exact .nil
  | cons hrel _ ih =>
    exact .cons (himp _ _ List.mem_cons_self hrel)
      (ih fun x y hy => himp x y (List.mem_cons_of_mem _ hy))

/-- Only a task has the tree of a task. -/
theorem SameTree.task_right {t : Task β} (h : SameTree c (task t)) : ∃ s, c = task s := by
  cases c with
  | task s => exact ⟨s, rfl⟩
  | group flow corner first rest => cases h.root

/-- Only a group of the same flow has the tree of a group. -/
theorem SameTree.group_right {flow : Flow} {corner : Point β} {first : Chart β}
    {rest : List (Chart β)} (h : SameTree c (group flow corner first rest)) :
    ∃ corner' first' rest', c = group flow corner' first' rest' := by
  cases c with
  | task s => cases h.root
  | group flow' corner' first' rest' =>
    obtain rfl : flow' = flow := Option.some.inj h.root
    exact ⟨corner', first', rest', rfl⟩

end Boxwise

/-! ## Measuring -/

/-- Every intermediate height is as exact as what the parts fold to. -/
theorem halved_heights (flow : Flow) {cs : List (Chart Float)} {ds : List (Chart Rat)}
    (h : List.Forall₂ (fun c d => Halved c.extent.height d.extent.height) cs ds)
    {e : Extent Float} {e' : Extent Rat} (he : Halved e.height e'.height)
    (hlimit : (ds.foldl (fun e c => flow.extend e c.extent) e').height < 2 ^ 52) :
    List.Forall₂ Halved (heights flow e cs) (heights flow e' ds) ∧
      Halved (cs.foldl (fun e c => flow.extend e c.extent) e).height
        (ds.foldl (fun e c => flow.extend e c.extent) e').height := by
  induction h generalizing e e' with
  | nil => exact ⟨.cons he .nil, he⟩
  | @cons c d cs ds hhead _ ih =>
    have hnext : Halved (flow.extend e c.extent).height (flow.extend e' d.extent).height := by
      cases flow with
      | parallel => exact he.larger hhead
      | sequential =>
        exact he.add hhead (lt_of_le_of_lt (le_height_foldl .sequential _ ds) hlimit)
    obtain ⟨hheights, hfold⟩ := ih hnext hlimit
    rw [heights_cons, heights_cons]
    exact ⟨.cons he hheights, hfold⟩

/-- **Measured alike.**  A chart is exactly as high as the same tree in exact arithmetic. -/
theorem halved_height {c : Chart Float} {d : Chart Rat} (h : SameTree c d)
    (hlimit : d.extent.height < 2 ^ 52) : Halved c.extent.height d.extent.height := by
  induction d using inductParts generalizing c with
  | ofTask t =>
    obtain ⟨s, rfl⟩ := h.task_right
    exact Halved.one
  | ofGroup flow corner first rest ih =>
    obtain ⟨corner', first', rest', rfl⟩ := h.group_right
    have hparts := forall₂_of_mem h.parts fun a b hb hab =>
      ih b hb hab (lt_of_le_of_lt (height_le_group flow corner hb) hlimit)
    rw [extent_group] at hlimit
    rw [extent_group, extent_group]
    exact (halved_heights flow hparts Halved.zero hlimit).2

/-! ## Placing -/

/-- A box stands level with one in exact arithmetic, which is not beyond the limit of binary64. -/
structure LevelBox (a : Chart Float) (b : Chart Rat) : Prop where
  flow : a.flow? = b.flow?
  top : Halved a.corner.y b.corner.y
  limit : b.corner.y + b.extent.height < 2 ^ 52

/-- Two charts stand level, box by box. -/
def Level (c : Chart Float) (d : Chart Rat) : Prop := Boxwise LevelBox c d

theorem Level.sameTree {c : Chart Float} {d : Chart Rat} (h : Level c d) : SameTree c d :=
  h.imp fun _ _ hbox => hbox.flow

/-- Two charts are as high as each other, and level wherever they are placed at one height. -/
structure PlacesLevel (c : Chart Float) (d : Chart Rat) : Prop where
  height : Halved c.extent.height d.extent.height
  place : ∀ {p : Point Float} {q : Point Rat}, Halved p.y q.y →
    q.y + d.extent.height < 2 ^ 52 → Level (c.place p) (d.place q)

section Rows

variable {cs : List (Chart Float)} {ds : List (Chart Rat)} (h : List.Forall₂ PlacesLevel cs ds)

include h

/-- One below another parts stand level, because each begins where the one before it ends. -/
theorem level_sequential (p : Point Float) (q : Point Rat) (w : Extent Float) (w' : Extent Rat)
    {x : Float} {y : Rat} (hcursor : Halved x y)
    (hlimit : y + (ds.map (lengthOn .sequential)).sum < 2 ^ 52) :
    List.Forall₂ Level (placeRow .sequential p w x cs) (placeRow .sequential q w' y ds) := by
  induction h generalizing x y with
  | nil => exact .nil
  | @cons c d cs ds hhead _ ih =>
    rw [List.map_cons, List.sum_cons, ← add_assoc] at hlimit
    have hnext : y + d.extent.height < 2 ^ 52 :=
      lt_of_le_of_lt (le_add_of_nonneg_right (sum_heights_nonneg ds)) hlimit
    exact .cons (hhead.place hcursor hnext) (ih (hcursor.add hhead.height hnext) hlimit)

/-- Side by side parts stand level, because half of a whole number of rows is above each. -/
theorem level_parallel {p : Point Float} {q : Point Rat} (hp : Halved p.y q.y)
    {w : Extent Float} {w' : Extent Rat} (hw : Halved w.height w'.height)
    (hmargin : ∀ d ∈ ds, ∃ n : Nat, w'.height - d.extent.height = n)
    (hlimit : q.y + w'.height < 2 ^ 52) (x : Float) (y : Rat) :
    List.Forall₂ Level (placeRow .parallel p w x cs) (placeRow .parallel q w' y ds) := by
  induction h generalizing x y with
  | nil => exact .nil
  | @cons c d cs ds hhead _ ih =>
    -- what is halved is a whole number of rows, so that a half of it is a number of halves
    obtain ⟨n, hn⟩ := hmargin d List.mem_cons_self
    have hroom : (0 : Rat) ≤ n := Nat.cast_nonneg n
    have hheight := height_nonneg d
    have hseat : q.y + (w'.height - d.extent.height) / 2 + d.extent.height ≤ q.y + w'.height := by
      rw [hn]
      linarith
    have htop : Halved (p.y + Scalar.half (w.height - c.extent.height))
        (q.y + (w'.height - d.extent.height) / 2) :=
      hp.add ((hw.sub hhead.height (by linarith)).half ⟨n, hn⟩) (by linarith)
    refine .cons (hhead.place htop (lt_of_le_of_lt hseat hlimit)) ?_
    exact ih (fun e he => hmargin e (List.mem_cons_of_mem d he)) _ _

end Rows

theorem flow?_place {α : Type} [Scalar α] (p : Point α) (c : Chart α) :
    (c.place p).flow? = c.flow? := by
  cases c with
  | task t => rfl
  | group flow corner first rest =>
    rw [place_group]
    rfl

/-- **Placed alike.**  Placed at one height, charts of one tree stand level. -/
theorem level_place {c : Chart Float} {d : Chart Rat} (h : SameTree c d) {p : Point Float}
    {q : Point Rat} (hp : Halved p.y q.y) (hlimit : q.y + d.extent.height < 2 ^ 52) :
    Level (c.place p) (d.place q) := by
  induction d using inductParts generalizing c p q with
  | ofTask t =>
    obtain ⟨s, rfl⟩ := h.task_right
    exact boxwise_of_parts ⟨rfl, hp, hlimit⟩ .nil
  | ofGroup flow corner first rest ih =>
    have hbox : LevelBox (c.place p) ((group flow corner first rest).place q) := by
      refine ⟨?_, ?_, ?_⟩
      · rw [flow?_place, flow?_place]
        exact h.root
      · rw [corner_place, corner_place]
        exact hp
      · rw [corner_place, extent_place]
        exact hlimit
    refine boxwise_of_parts hbox ?_
    obtain ⟨corner', first', rest', rfl⟩ := h.group_right
    have htop : 0 ≤ q.y := hp.nonneg
    have hheight : (group flow corner first rest).extent.height < 2 ^ 52 := by linarith
    -- where the row seats them the parts will be level, if it seats them alike
    have hparts : List.Forall₂ PlacesLevel (first' :: rest') (first :: rest) := by
      refine forall₂_of_mem h.parts fun a b hb hab => ⟨halved_height hab ?_, ih b hb hab⟩
      exact lt_of_le_of_lt (height_le_group flow corner hb) hheight
    rw [parts_place_group, parts_place_group]
    cases flow with
    | parallel =>
      exact level_parallel hparts hp (halved_height h hheight)
        (fun e he => exists_margin corner he) hlimit _ _
    | sequential =>
      rw [height_sequential] at hlimit
      exact level_sequential hparts p q _ _ hp hlimit

/-! ## The numbers of one box -/

theorem halved_margins {cs : List (Chart Float)} {ds : List (Chart Rat)}
    (h : List.Forall₂ (fun c d => Halved c.extent.height d.extent.height) cs ds) {x : Float}
    {y : Rat} (hxy : Halved x y) (hmargin : ∀ d ∈ ds, ∃ n : Nat, y - d.extent.height = n) :
    List.Forall₂ Halved (margins x cs) (margins y ds) := by
  induction h with
  | nil => exact .nil
  | @cons c d cs ds hhead _ ih =>
    obtain ⟨n, hn⟩ := hmargin d List.mem_cons_self
    have hle : d.extent.height ≤ y := by
      have hroom : (0 : Rat) ≤ n := Nat.cast_nonneg n
      linarith
    have hroom := hxy.sub hhead hle
    exact .cons hroom (.cons (hroom.half ⟨n, hn⟩)
      (ih fun e he => hmargin e (List.mem_cons_of_mem d he)))

theorem halved_cursors {cs : List (Chart Float)} {ds : List (Chart Rat)}
    (h : List.Forall₂ (fun c d => Halved c.extent.height d.extent.height) cs ds) {x : Float}
    {y : Rat} (hxy : Halved x y) (hlimit : y + (ds.map (lengthOn .sequential)).sum < 2 ^ 52) :
    List.Forall₂ Halved (cursors x cs) (cursors y ds) := by
  induction h generalizing x y with
  | nil => exact .cons hxy .nil
  | @cons c d cs ds hhead _ ih =>
    rw [List.map_cons, List.sum_cons, ← add_assoc] at hlimit
    have hnext : y + d.extent.height < 2 ^ 52 :=
      lt_of_le_of_lt (le_add_of_nonneg_right (sum_heights_nonneg ds)) hlimit
    rw [cursors_cons, cursors_cons]
    exact .cons hxy (ih (hxy.add hhead hnext) hlimit)

/-- What a box accounts for itself is in step. -/
theorem level_ownOrdinates {c : Chart Float} {d : Chart Rat} (h : Level c d) :
    List.Forall₂ Halved c.ownOrdinates d.ownOrdinates := by
  have htop := h.root.top
  have hlimit := h.root.limit
  have hheight : d.extent.height < 2 ^ 52 := by
    have := htop.nonneg
    linarith
  have hparts : List.Forall₂ (fun a b => Halved a.extent.height b.extent.height)
      c.parts d.parts := by
    refine forall₂_of_mem h.parts fun a b hb hab => halved_height (Level.sameTree hab) ?_
    cases d with
    | task t => exact absurd hb List.not_mem_nil
    | group flow corner first rest => exact lt_of_le_of_lt (height_le_group flow corner hb) hheight
  cases d with
  | task t =>
    obtain ⟨s, rfl⟩ := h.sameTree.task_right
    exact .cons htop (.cons Halved.one .nil)
  | group flow corner first rest =>
    have hwhole := halved_height h.sameTree hheight
    obtain ⟨corner', first', rest', rfl⟩ := h.sameTree.group_right
    -- the height so far never exceeds that of the whole, so that no sum on the way is too large
    have hheights : List.Forall₂ Halved (heights flow Extent.zero (first' :: rest'))
        (heights flow Extent.zero (first :: rest)) := by
      rw [extent_group] at hheight
      exact (halved_heights flow hparts Halved.zero hheight).1
    cases flow with
    | parallel =>
      exact List.rel_append (.cons htop hheights)
        (halved_margins hparts hwhole fun e he => exists_margin corner he)
    | sequential =>
      rw [height_sequential] at hlimit
      exact List.rel_append (.cons htop hheights) (halved_cursors hparts htop hlimit)

/-! ## Points and links -/

/-- Two points are at one height. -/
def LevelPoint (p : Point Float) (q : Point Rat) : Prop := Halved p.y q.y

/-- The ends of two links are at the same heights. -/
structure LevelLink (l : Link Float) (l' : Link Rat) : Prop where
  source : LevelPoint l.source l'.source
  target : LevelPoint l.target l'.target

theorem level_entries {c : Chart Float} {d : Chart Rat} (h : Level c d) :
    List.Forall₂ LevelPoint c.entries d.entries := by
  induction d using inductParts generalizing c with
  | ofTask t =>
    obtain ⟨s, rfl⟩ := h.sameTree.task_right
    exact .cons h.root.top .nil
  | ofGroup flow corner first rest ih =>
    obtain ⟨corner', first', rest', rfl⟩ := h.sameTree.group_right
    have hparts := forall₂_of_mem h.parts fun a b hb hab => ih b hb hab
    cases flow with
    | parallel =>
      rw [entries_parallel, entries_parallel]
      exact List.rel_flatMap hparts fun _ _ hab => hab
    | sequential =>
      cases hparts with
      | cons hfirst _ => exact hfirst

theorem level_leave {cs : List (Chart Float)} {ds : List (Chart Rat)}
    (h : List.Forall₂ (fun c d => List.Forall₂ LevelPoint c.exits d.exits) cs ds)
    {ps : List (Point Float)} {qs : List (Point Rat)} (hincoming : List.Forall₂ LevelPoint ps qs) :
    List.Forall₂ LevelPoint (leave ps cs) (leave qs ds) := by
  induction h generalizing ps qs with
  | nil => exact hincoming
  | cons hexits _ ih => exact ih hexits

theorem level_exits {c : Chart Float} {d : Chart Rat} (h : Level c d) :
    List.Forall₂ LevelPoint c.exits d.exits := by
  induction d using inductParts generalizing c with
  | ofTask t =>
    obtain ⟨s, rfl⟩ := h.sameTree.task_right
    exact .cons (h.root.top.add Halved.one h.root.limit) .nil
  | ofGroup flow corner first rest ih =>
    obtain ⟨corner', first', rest', rfl⟩ := h.sameTree.group_right
    have hparts := forall₂_of_mem h.parts fun a b hb hab => ih b hb hab
    cases flow with
    | parallel =>
      rw [exits_parallel, exits_parallel]
      exact List.rel_flatMap hparts fun _ _ hab => hab
    | sequential =>
      rw [exits_eq_leave corner' first' rest' [], exits_eq_leave corner first rest []]
      exact level_leave hparts .nil

/-- One after another, each from where the one before it is left. -/
theorem level_linksAfter {cs : List (Chart Float)} {ds : List (Chart Rat)}
    (h : List.Forall₂ Level cs ds)
    (hlinks : ∀ c, ∀ d ∈ ds, Level c d → ∀ {ps : List (Point Float)} {qs : List (Point Rat)},
      List.Forall₂ LevelPoint ps qs → List.Forall₂ LevelLink (c.links ps) (d.links qs))
    {ps : List (Point Float)} {qs : List (Point Rat)} (hincoming : List.Forall₂ LevelPoint ps qs) :
    List.Forall₂ LevelLink (linksAfter ps cs) (linksAfter qs ds) := by
  induction h generalizing ps qs with
  | nil => exact .nil
  | cons hhead _ ih =>
    exact List.rel_append (hlinks _ _ List.mem_cons_self hhead hincoming)
      (ih (fun c d hd => hlinks c d (List.mem_cons_of_mem _ hd)) (level_exits hhead))

/-- **Linked alike.**  Entered from level points, charts that stand level have level links. -/
theorem level_links {c : Chart Float} {d : Chart Rat} (h : Level c d) {ps : List (Point Float)}
    {qs : List (Point Rat)} (hincoming : List.Forall₂ LevelPoint ps qs) :
    List.Forall₂ LevelLink (c.links ps) (d.links qs) := by
  induction d using inductParts generalizing c ps qs with
  | ofTask t =>
    obtain ⟨s, rfl⟩ := h.sameTree.task_right
    exact List.rel_map (fun _ _ hsource => ⟨hsource, h.root.top⟩) hincoming
  | ofGroup flow corner first rest ih =>
    obtain ⟨corner', first', rest', rfl⟩ := h.sameTree.group_right
    cases flow with
    | parallel =>
      rw [links_parallel, links_parallel]
      have hparts := forall₂_of_mem h.parts fun a b hb hab => ih b hb hab hincoming
      exact List.rel_flatMap hparts fun _ _ hab => hab
    | sequential => exact level_linksAfter h.parts (fun a b hb hab => ih b hb hab) hincoming

/-- **Box by box the vertical axis is in step.** -/
theorem level_ordinates {c : Chart Float} {d : Chart Rat} (h : Level c d) :
    List.Forall₂ Halved c.ordinates d.ordinates := by
  have hpoints : List.Forall₂ Halved ((c.entries ++ c.exits).map Point.y)
      ((d.entries ++ d.exits).map Point.y) := by
    rw [List.forall₂_map_left_iff, List.forall₂_map_right_iff]
    exact List.rel_append (level_entries h) (level_exits h)
  have hlinks : List.Forall₂ Halved (c.innerLinks.flatMap Link.ordinates)
      (d.innerLinks.flatMap Link.ordinates) :=
    List.rel_flatMap (level_links h .nil) fun _ _ hlink =>
      .cons hlink.source (.cons hlink.target .nil)
  exact List.rel_append (List.rel_append (level_ownOrdinates h) hpoints) hlinks

/-! ## The vertical axis -/

/-- The vertical axis of a chart of fewer than `2 ^ 51` tasks is within the limit of binary64. -/
theorem height_lt_limit {c : Chart Rat} (h : c.tasks.length < 2 ^ 51) :
    c.extent.height < 2 ^ 52 := by
  obtain ⟨n, -, hn, hheight⟩ := exists_rows c
  have hlt : (n : Rat) < (2 ^ 52 : Nat) := by
    exact_mod_cast (show n < 2 ^ 52 by omega)
  rw [hheight]
  exact_mod_cast hlt

/-- **The vertical axis needs no rounding.**  In exact arithmetic, a chart at the origin has boxes
    each of which is as high as a whole number of rows, at least one and at most one for each task
    in it, and everything that comes up on the vertical axis is a number of halves between the top
    of the chart and its bottom.  With fewer than `2 ^ 51` tasks all of this can be kept in binary64
    exactly, and a layout of the same tree in binary64 comes to just these numbers. -/
theorem vertical_axis_unrounded (c : Chart Rat) :
    (∀ path b, (c.place Point.origin).at? path = some b →
      (∃ n : Nat, 1 ≤ n ∧ n ≤ b.tasks.length ∧ b.extent.height = n) ∧
      ∀ y ∈ b.ordinates,
        (∃ k : Nat, y = k / 2) ∧ 0 ≤ y ∧ y ≤ (c.place Point.origin).extent.height) ∧
    (c.place Point.origin).extent.height ≠ 0 ∧
    (c.tasks.length < 2 ^ 51 →
      (∀ path b, (c.place Point.origin).at? path = some b →
        ∀ y ∈ b.ordinates, ∃ x, StandsFor x y) ∧
      ∀ d : Chart Float, SameTree d c →
        Boxwise (fun b b' => List.Forall₂ StandsFor b.ordinates b'.ordinates)
          (d.place Point.origin) (c.place Point.origin)) := by
  have hordinates : ∀ path b, (c.place Point.origin).at? path = some b → ∀ y ∈ b.ordinates,
      OnRows c.extent.height y := fun path b hb => onRows_ordinates hb
  rw [extent_place]
  refine ⟨fun path b hb => ⟨exists_rows b, fun y hy => ?_⟩, ?_, fun hfew => ⟨?_, ?_⟩⟩
  · obtain ⟨hhalves, htop, hbottom⟩ := hordinates path b hb y hy
    exact ⟨hhalves, htop, hbottom⟩
  -- there is at least one row, so that the scale is a proper quotient
  · have hone : 1 ≤ c.extent.height := one_le_rows c
    exact (lt_of_lt_of_le zero_lt_one hone).ne'
  · intro path b hb y hy
    obtain ⟨hhalves, -, hbottom⟩ := hordinates path b hb y hy
    obtain ⟨x, hx⟩ := exists_halved hhalves (lt_of_le_of_lt hbottom (height_lt_limit hfew))
    exact ⟨x, hx.standsFor⟩
  · intro d hd
    have horigin : Halved (Point.origin : Point Float).y (Point.origin : Point Rat).y := Halved.zero
    have hlimit : (Point.origin : Point Rat).y + c.extent.height < 2 ^ 52 := by
      have hzero : (Point.origin : Point Rat).y = 0 := rfl
      rw [hzero, zero_add]
      exact height_lt_limit hfew
    refine (level_place hd horigin hlimit).below.imp fun b b' hlevel => ?_
    exact (level_ordinates hlevel).imp fun _ _ hy => hy.standsFor

end SpanChart.Chart
