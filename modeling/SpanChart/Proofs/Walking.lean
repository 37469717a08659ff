/-
  WALKING — the survey of a lineage, visit by visit.

  A survey counts lines of descent by going down them.  `lines` says what it finds as a recursion
  on the depth that is left.  Here it is done step by step, with a stack: the spans that are still
  to be visited stand in a row, each with its depth; a visit takes the first of them, counts it and
  puts its children in front, later ones first.  Nothing remembers what was visited before, and in
  an arbitrary lineage the same span may be visited any number of times.  Two things end a walk:
  there is nothing left to visit, or the next span is too deep.

  1. `wellFounded_visit` — every walk ends, from whatever it is started with.  What gets less with
     each visit is what is still ahead (`ahead`): all visits to come, down to the first level that
     is too deep.  A visit takes one off it, for the children it adds were part of it already.

  2. `exists_end` — what the walk from a root ends with is what the survey reports.

  3. `walk_counts_lines` — and that is told by the lines: how many they are, as a machine word, or
     which of them is the first to be too long.
-/
import SpanChart.Proofs.Lines

namespace SpanChart

/-- A walk under way. -/
structure Walk where
  /-- The spans still to be visited, with their depths, the next one first. -/
  pending : List (SpanId × Nat)
  /-- How many visits there were.  The count is a machine word, and may wrap. -/
  reached : UInt64
  deriving Repr, DecidableEq

namespace Walk

/-- The walk before its first visit. -/
def start (root : SpanId) : Walk := ⟨[(root, 1)], 0⟩

/-- The walk after one more visit, unless there is nothing to visit or the next span is too
    deep. -/
def visit? (children : Children) (w : Walk) : Option Walk :=
  match w.pending with
  | [] => none
  | (id, depth) :: pending =>
    if nestingLimit < depth then none
    else some ⟨(children.of id).reverse.map (·, depth + 1) ++ pending, w.reached + 1⟩

/-- The span to be visited next, and its depth. -/
def next? (w : Walk) : Option (SpanId × Nat) := w.pending.head?

/-- What is reported of a walk that has ended, where `count` spans should have been reached. -/
def finding {α : Type} (root : SpanId) (count : UInt64) (w : Walk) : Option (Defect α) :=
  match w.pending with
  | [] => if w.reached = count then none else some (.unreachable (count - w.reached) root)
  | (id, depth) :: _ => some (.tooDeep id depth)

/-- One walk comes from another by any number of visits. -/
def Reaches (children : Children) : Walk → Walk → Prop :=
  Relation.ReflTransGen fun w w' => w.visit? children = some w'

variable {children : Children} {w w' : Walk}

/-! ## One visit -/

/-- What a visit does. -/
theorem visit?_eq_some (h : w.visit? children = some w') :
    ∃ id depth pending, w.pending = (id, depth) :: pending ∧ depth ≤ nestingLimit ∧
      w' = ⟨(children.of id).reverse.map (·, depth + 1) ++ pending, w.reached + 1⟩ := by
  unfold visit? at h
  split at h
  · cases h
  · next id depth pending hpending =>
    split at h
    · cases h
    · next hdepth => exact ⟨id, depth, pending, hpending, not_lt.1 hdepth, (Option.some.inj h).symm⟩

theorem visit?_of_le {depth : Nat} (h : depth ≤ nestingLimit) (children : Children) (id : SpanId)
    (pending : List (SpanId × Nat)) (reached : UInt64) :
    visit? children ⟨(id, depth) :: pending, reached⟩ =
      some ⟨(children.of id).reverse.map (·, depth + 1) ++ pending, reached + 1⟩ :=
  if_neg (not_lt.2 h)

theorem visit?_of_lt {id : SpanId} {depth : Nat} (h : nestingLimit < depth)
    (pending : List (SpanId × Nat)) (reached : UInt64) :
    visit? children ⟨(id, depth) :: pending, reached⟩ = none :=
  if_pos h

/-! ## How it may end -/

section End

variable {α : Type} {root : SpanId} {count reached : UInt64}

theorem finding_nil_eq_none_iff :
    finding (α := α) root count ⟨[], reached⟩ = none ↔ reached = count := by
  simp [finding]

theorem finding_nil_eq_some {defect : Defect α}
    (h : finding root count ⟨[], reached⟩ = some defect) :
    defect = .unreachable (count - reached) root := by
  simp only [finding] at h
  split at h
  · cases h
  · exact (Option.some.inj h).symm

end End

/-! ## What is ahead -/

/-- The visits below a span and to it, down to so many levels. -/
def tour (children : Children) : Nat → SpanId → List SpanId
  | 0, _ => []
  | levels + 1, id => id :: (children.of id).reverse.flatMap (tour children levels)

/-- The visits to come, those to spans one level too deep among them. -/
def ahead (children : Children) (w : Walk) : List SpanId :=
  w.pending.flatMap fun p => tour children (nestingLimit + 2 - p.2) p.1

/-- **A visit takes one off what is ahead**, the first, which is the one it makes. -/
theorem ahead_of_visit (h : w.visit? children = some w') :
    ∃ id depth, w.next? = some (id, depth) ∧ w.ahead children = id :: w'.ahead children := by
  obtain ⟨id, depth, pending, hpending, hdepth, rfl⟩ := visit?_eq_some h
  refine ⟨id, depth, by rw [next?, hpending]; rfl, ?_⟩
  have hlevels : nestingLimit + 2 - depth = nestingLimit + 2 - (depth + 1) + 1 := by omega
  unfold ahead
  rw [hpending, List.flatMap_cons, List.flatMap_append, List.flatMap_map, hlevels, tour]
  rfl

/-- **Walks end.** -/
theorem wellFounded_visit (children : Children) :
    WellFounded fun w' w : Walk => w.visit? children = some w' := by
  refine Subrelation.wf ?_ (measure fun w : Walk => (w.ahead children).length).wf
  intro w' w h
  obtain ⟨id, depth, -, hahead⟩ := ahead_of_visit h
  show (w'.ahead children).length < (w.ahead children).length
  rw [hahead, List.length_cons]
  exact Nat.lt_succ_self _

/-- What is ahead of a walk later on was ahead of it before. -/
theorem ahead_of_reaches (h : Reaches children w w') : w'.ahead children <:+ w.ahead children := by
  induction h with
  | refl => exact List.suffix_rfl
  | tail _ hvisit ih =>
    obtain ⟨id, depth, -, hahead⟩ := ahead_of_visit hvisit
    exact (hahead ▸ List.suffix_cons id _).trans ih

/-- A tour goes where the lines of descent end, in another order. -/
theorem tour_perm_descent (children : Children) (levels : Nat) (id : SpanId) :
    (tour children levels id).Perm (children.descent levels id) := by
  induction levels generalizing id with
  | zero => exact List.Perm.refl _
  | succ levels ih =>
    refine List.Perm.cons id ?_
    exact ((List.reverse_perm _).flatMap_right _).trans (List.Perm.flatMap_left _ fun c _ => ih c)

/-- **What is pending is as deep as it says**, and at most one level too deep. -/
theorem generation_of_pending {root : SpanId} (h : Reaches children (start root) w) :
    ∀ p ∈ w.pending, ∃ k ≤ nestingLimit, p.2 = k + 1 ∧ p.1 ∈ children.generation k root := by
  induction h with
  | refl =>
    intro p hp
    obtain rfl := List.mem_singleton.1 hp
    exact ⟨0, Nat.zero_le _, rfl, Children.mem_generation_zero.2 rfl⟩
  | tail _ hvisit ih =>
    obtain ⟨id, depth, pending, hpending, hdepth, rfl⟩ := visit?_eq_some hvisit
    rw [hpending, List.forall_mem_cons] at ih
    obtain ⟨⟨k, -, rfl, hid⟩, hrest⟩ := ih
    intro p hp
    rcases List.mem_append.1 hp with hp | hp
    · obtain ⟨c, hc, rfl⟩ := List.mem_map.1 hp
      refine ⟨k + 1, hdepth, rfl, Children.mem_generation_succ_last.2 ⟨id, hid, ?_⟩⟩
      exact List.mem_reverse.1 hc
    · exact hrest p hp

/-! ## Whole walks -/

/-- A walk that comes past each of several spans comes past all of them. -/
theorem reaches_past_all {depth : Nat} {ids : List SpanId} {size : SpanId → Nat}
    (h : ∀ c ∈ ids, ∀ pending reached, Reaches children ⟨(c, depth) :: pending, reached⟩
      ⟨pending, reached + UInt64.ofNat (size c)⟩)
    (pending : List (SpanId × Nat)) (reached : UInt64) :
    Reaches children ⟨ids.map (·, depth) ++ pending, reached⟩
      ⟨pending, reached + UInt64.ofNat (ids.map size).sum⟩ := by
  induction ids generalizing reached with
  | nil =>
    have hzero : reached + UInt64.ofNat 0 = reached := UInt64.add_zero reached
    exact hzero.symm ▸ Relation.ReflTransGen.refl
  | cons c ids ih =>
    have hfirst := h c List.mem_cons_self (ids.map (·, depth) ++ pending) reached
    have hrest := ih (fun d hd => h d (List.mem_cons_of_mem c hd))
      (reached + UInt64.ofNat (size c))
    rw [UInt64.add_assoc, ← UInt64.ofNat_add] at hrest
    exact hfirst.trans hrest

/-- If the lines from a span end before they are too deep, the walk comes past it, and has made as
    many visits more as there are ends of lines. -/
theorem reaches_past {levels depth : Nat} (hlevels : levels + depth = nestingLimit + 1)
    {id : SpanId} (hend : children.generation levels id = []) (pending : List (SpanId × Nat))
    (reached : UInt64) :
    Reaches children ⟨(id, depth) :: pending, reached⟩
      ⟨pending, reached + UInt64.ofNat (children.descent levels id).length⟩ := by
  induction levels generalizing id depth pending reached with
  | zero => exact absurd hend (List.cons_ne_nil _ _)
  | succ levels ih =>
    have hdepth : depth ≤ nestingLimit := by omega
    have hvisit := visit?_of_le hdepth children id pending reached
    have hchildren : ∀ c ∈ (children.of id).reverse, ∀ pending reached,
        Reaches children ⟨(c, depth + 1) :: pending, reached⟩
          ⟨pending, reached + UInt64.ofNat (children.descent levels c).length⟩ := by
      intro c hc
      have hc := Children.generation_succ_eq_nil_iff.1 hend c (List.mem_reverse.1 hc)
      exact ih (by omega) hc
    -- the children are pushed in order, so the last one is walked first
    have hall := reaches_past_all hchildren pending (reached + 1)
    have hsum : ((children.of id).reverse.map fun c => (children.descent levels c).length).sum =
        ((children.of id).map fun c => (children.descent levels c).length).sum := by
      rw [List.map_reverse, List.sum_reverse]
    have hone : UInt64.ofNat 1 = 1 := rfl
    rw [Children.descent, List.length_cons, List.length_flatMap, Nat.add_comm, UInt64.ofNat_add,
      hone, ← UInt64.add_assoc, ← hsum]
    exact .head hvisit hall

/-- If there is a line from a span that is too deep, the walk gets to where counting finds it. -/
theorem reaches_too_deep {levels depth : Nat} (hlevels : levels + depth = nestingLimit + 1)
    {id e : SpanId} (herror : children.lines levels id = .error e) (pending : List (SpanId × Nat))
    (reached : UInt64) :
    ∃ pending' reached', Reaches children ⟨(id, depth) :: pending, reached⟩
      ⟨(e, nestingLimit + 1) :: pending', reached'⟩ := by
  induction levels generalizing id depth pending reached with
  | zero =>
    obtain rfl : id = e := Except.error.inj herror
    obtain rfl : depth = nestingLimit + 1 := by omega
    exact ⟨pending, reached, .refl⟩
  | succ levels ih =>
    have hdepth : depth ≤ nestingLimit := by omega
    have hvisit := visit?_of_le hdepth children id pending reached
    rw [Children.lines] at herror
    obtain ⟨later, c, earlier, hreverse, hlater, hc⟩ :=
      Children.exists_of_foldlM_add_eq_error herror
    -- the walk comes past the later children, and goes down into the one that was found
    have hpast : ∀ d ∈ later, ∀ pending reached,
        Reaches children ⟨(d, depth + 1) :: pending, reached⟩
          ⟨pending, reached + UInt64.ofNat (children.descent levels d).length⟩ := by
      intro d hd
      obtain ⟨n, hn⟩ := hlater d hd
      exact reaches_past (by omega) (Children.lines_eq_ok_iff.1 hn).1
    have hall := reaches_past_all hpast
      ((c, depth + 1) :: earlier.map (·, depth + 1) ++ pending) (reached + 1)
    have hbelow : levels + (depth + 1) = nestingLimit + 1 := by omega
    obtain ⟨pending', reached', hdown⟩ := ih hbelow hc
      (earlier.map (·, depth + 1) ++ pending)
      (reached + 1 + UInt64.ofNat (later.map fun d => (children.descent levels d).length).sum)
    refine ⟨pending', reached', .head hvisit ?_⟩
    rw [hreverse, List.map_append, List.map_cons, List.append_assoc]
    exact hall.trans hdown

/-- If all lines end in time, the walk visits every end of one, and reports what the survey
    does. -/
theorem end_of_shallow {α : Type} {root : SpanId}
    (hend : children.generation nestingLimit root = []) :
    Reaches children (start root)
        ⟨[], UInt64.ofNat (children.descent nestingLimit root).length⟩ ∧
      ∀ count, finding (α := α) root count
          ⟨[], UInt64.ofNat (children.descent nestingLimit root).length⟩ =
        children.survey root count := by
  have htop : nestingLimit + 1 = nestingLimit + 1 := rfl
  have hpast := reaches_past htop hend [] 0
  rw [UInt64.zero_add] at hpast
  refine ⟨hpast, fun count => ?_⟩
  unfold Children.survey
  rw [Children.lines_eq_ok_iff.2 ⟨hend, rfl⟩]
  rfl

/-- **The walk from a root ends, and finds what the survey reports.** -/
theorem exists_end {α : Type} (children : Children) (root : SpanId) :
    ∃ w, Reaches children (start root) w ∧ w.visit? children = none ∧
      ∀ count, w.finding (α := α) root count = children.survey root count := by
  cases h : children.lines nestingLimit root with
  | error e =>
    have htop : nestingLimit + 1 = nestingLimit + 1 := rfl
    obtain ⟨pending, reached, hreaches⟩ := reaches_too_deep htop h [] 0
    refine ⟨_, hreaches, visit?_of_lt (Nat.lt_succ_self _) _ _, fun count => ?_⟩
    unfold Children.survey
    rw [h]
    rfl
  | ok n =>
    obtain ⟨hreaches, hfinding⟩ := end_of_shallow (α := α) (Children.lines_eq_ok_iff.1 h).1
    exact ⟨_, hreaches, rfl, hfinding⟩

end Walk

/-! ## What is found -/

namespace Children

variable {α : Type} {children : Children} {root : SpanId}

/-- Where all lines are short, their number decides. -/
theorem survey_of_shallow (h : children.Shallow nestingLimit root) (count : UInt64) :
    children.survey (α := α) root count =
      if UInt64.ofNat (children.linesFrom root).ncard = count then none
      else some (.unreachable (count - UInt64.ofNat (children.linesFrom root).ncard) root) := by
  have hlines : children.lines nestingLimit root = .ok (children.linesFrom root).ncard :=
    lines_eq_ok_iff.2 ⟨shallow_iff.1 h, (linesFrom_of_shallow h).2⟩
  unfold survey
  rw [hlines]

/-- Where one is not, the first that goes too far does. -/
theorem survey_of_not_shallow (h : ¬children.Shallow nestingLimit root) (count : UInt64) :
    ∃ path id, IsGreatest {p ∈ children.linesFrom root | p.length = nestingLimit} path ∧
      children.follow path root = some id ∧
      children.survey (α := α) root count = some (.tooDeep id (nestingLimit + 1)) := by
  cases hlines : children.lines nestingLimit root with
  | ok n => exact absurd (lines_eq_ok hlines).1 h
  | error id =>
    obtain ⟨path, hpath, hend⟩ := lines_eq_error hlines
    refine ⟨path, id, hpath, hend, ?_⟩
    unfold survey
    rw [hlines]

/-- Numbers are one word exactly if they agree up to its size. -/
theorem ofNat_eq_iff_modEq {n : Nat} {count : UInt64} :
    UInt64.ofNat n = count ↔ n ≡ count.toNat [MOD 2 ^ 64] := by
  rw [← UInt64.toNat_inj, UInt64.toNat_ofNat', Nat.ModEq, Nat.mod_eq_of_lt count.toNat_lt]

end Children

namespace Walk

/-- **A walk counts lines.**  Whatever the lineage, and from whatever it is started with, there is
    no walk without end.  The one that starts at a root finds what the survey reports, and this is
    told by the lines from there:

    * nothing is wrong exactly if no line has more spans than the limit and there are as many lines
      as there should be, up to the size of a machine word;
    * if a line has more, the span that is reported ends the first of those that have just one
      more, with its depth.  Lines of one length are walked from the greatest to the least, position
      by position from the root;
    * otherwise the number that is reported is what is missing, up to the size of a word. -/
theorem walk_counts_lines {α : Type} (children : Children) (root : SpanId) (count : UInt64) :
    (WellFounded fun w' w : Walk => w.visit? children = some w') ∧
    ∃ w, Reaches children (start root) w ∧ w.visit? children = none ∧
      w.finding (α := α) root count = children.survey root count ∧
      (w.finding (α := α) root count = none ↔
        children.Shallow nestingLimit root ∧ (children.linesFrom root).Finite ∧
          (children.linesFrom root).ncard ≡ count.toNat [MOD 2 ^ 64]) ∧
      (¬children.Shallow nestingLimit root →
        ∃ path id, IsGreatest {p ∈ children.linesFrom root | p.length = nestingLimit} path ∧
          children.follow path root = some id ∧
          w.finding (α := α) root count = some (.tooDeep id (nestingLimit + 1))) ∧
      (children.Shallow nestingLimit root → w.finding (α := α) root count ≠ none →
        ∃ missing : UInt64, w.finding (α := α) root count = some (.unreachable missing root) ∧
          (missing.toNat : Int) =
            ((count.toNat : Int) - (children.linesFrom root).ncard) % 2 ^ 64) := by
  obtain ⟨w, hreaches, hend, hfinding⟩ := exists_end (α := α) children root
  refine ⟨wellFounded_visit children, w, hreaches, hend, hfinding count, ?_⟩
  rw [hfinding count]
  refine ⟨?_, fun h => Children.survey_of_not_shallow h count, fun h hne => ?_⟩
  · by_cases h : children.Shallow nestingLimit root
    · have hfinite := (Children.linesFrom_of_shallow h).1
      rw [Children.survey_of_shallow h, ← Children.ofNat_eq_iff_modEq]
      simp [h, hfinite]
    · obtain ⟨path, id, -, -, hsurvey⟩ := Children.survey_of_not_shallow (α := α) h count
      simp [h, hsurvey]
  · rw [Children.survey_of_shallow h] at hne ⊢
    have hcount : ¬UInt64.ofNat (children.linesFrom root).ncard = count :=
      fun heq => hne (if_pos heq)
    refine ⟨_, if_neg hcount, ?_⟩
    rw [UInt64.toNat_sub, UInt64.toNat_ofNat']
    have := count.toNat_lt
    omega

end Walk

end SpanChart
