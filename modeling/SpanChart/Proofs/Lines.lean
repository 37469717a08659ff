/-
  LINES — lines of descent one by one.

  A line goes from a span to one of its children, from there to one of that one's, and so on.  A
  child that is listed twice is two ways to go on, so a line is not given by its spans but by the
  positions it takes in the lists of children (`follow`).  A lineage may have lines of any length,
  unless none goes on for ever (`not_endless_iff`), and even then there may be more lines than a
  machine word counts.

  Counting lines gives one of two answers, and this file says which in terms of the lines alone:

  * if no line has more spans than the limit, the count is the number of lines (`lines_eq_ok`);
  * otherwise it is the span that ends the first line beyond the limit, later children first.  Of
    lines of one length, that one is the greatest, position by position from the top
    (`lines_eq_error`).
-/
import SpanChart.Proofs.Descent

namespace SpanChart.Children

variable {children : Children}

/-! ## Following positions -/

/-- The span that a line ends at which starts at a span and goes on to the children at these
    positions. -/
def follow (children : Children) : List Nat → SpanId → Option SpanId
  | [], id => some id
  | i :: path, id => (children.of id)[i]?.bind (follow children path)

/-- All lines from a span. -/
def linesFrom (children : Children) (id : SpanId) : Set (List Nat) :=
  {path | (children.follow path id).isSome}

/-- No line from a span has more spans than the limit, that one counted. -/
def Shallow (children : Children) (limit : Nat) (id : SpanId) : Prop :=
  ∀ path ∈ children.linesFrom id, path.length + 1 ≤ limit

theorem nil_mem_linesFrom (id : SpanId) : [] ∈ children.linesFrom id := rfl

/-- A line goes on from a child. -/
theorem cons_mem_linesFrom {i : Nat} {path : List Nat} {id : SpanId} :
    i :: path ∈ children.linesFrom id ↔
      ∃ c, (children.of id)[i]? = some c ∧ path ∈ children.linesFrom c := by
  show ((children.of id)[i]?.bind (children.follow path)).isSome = true ↔ _
  cases (children.of id)[i]? with
  | none => simp
  | some c => simp [linesFrom]

/-- Where lines of so many steps end there is a span of the generation, and conversely. -/
theorem mem_generation_iff_follow {k : Nat} {id x : SpanId} :
    x ∈ children.generation k id ↔ ∃ path, path.length = k ∧ children.follow path id = some x := by
  induction k generalizing id with
  | zero =>
    rw [mem_generation_zero]
    constructor
    · rintro rfl
      exact ⟨[], rfl, rfl⟩
    · rintro ⟨path, hlength, hx⟩
      obtain rfl := List.length_eq_zero_iff.1 hlength
      exact (Option.some.inj hx).symm
  | succ k ih =>
    rw [mem_generation_succ]
    constructor
    · rintro ⟨c, hc, hx⟩
      obtain ⟨i, hi⟩ := List.mem_iff_getElem?.1 hc
      obtain ⟨path, hlength, hx⟩ := ih.1 hx
      exact ⟨i :: path, congrArg (· + 1) hlength, by rw [follow, hi]; exact hx⟩
    · rintro ⟨path, hlength, hx⟩
      cases path with
      | nil => exact absurd hlength (Nat.succ_ne_zero k).symm
      | cons i path =>
        obtain ⟨c, hi, hx⟩ := Option.bind_eq_some_iff.1 hx
        exact ⟨c, List.mem_of_getElem? hi, ih.2 ⟨path, Nat.succ.inj hlength, hx⟩⟩

/-- There are lines of so many steps exactly if the generation is not empty. -/
theorem generation_eq_nil_iff {k : Nat} {id : SpanId} :
    children.generation k id = [] ↔ ∀ path ∈ children.linesFrom id, path.length ≠ k := by
  rw [List.eq_nil_iff_forall_not_mem]
  constructor
  · intro h path hpath hlength
    obtain ⟨x, hx⟩ := Option.isSome_iff_exists.1 hpath
    exact h x (mem_generation_iff_follow.2 ⟨path, hlength, hx⟩)
  · intro h x hx
    obtain ⟨path, hlength, hx⟩ := mem_generation_iff_follow.1 hx
    exact h path (Option.isSome_iff_exists.2 ⟨x, hx⟩) hlength

/-- Lines are short exactly if none goes one step too far. -/
theorem shallow_iff {limit : Nat} {id : SpanId} :
    children.Shallow limit id ↔ children.generation limit id = [] := by
  constructor
  · intro h
    refine generation_eq_nil_iff.2 fun path hpath hlength => ?_
    have := h path hpath
    omega
  · intro h path hpath
    by_contra hlong
    have hend := generation_eq_nil_of_le (n := path.length) (by omega) h
    exact generation_eq_nil_iff.1 hend path hpath rfl

/-! ## The number of lines -/

/-- The lines of at most `levels` spans, a line before those that go on from it. -/
def linesWithin (children : Children) : Nat → SpanId → List (List Nat)
  | 0, _ => []
  | levels + 1, id =>
    [] :: (children.of id).zipIdx.flatMap fun c => (linesWithin children levels c.1).map (c.2 :: ·)

theorem mem_linesWithin {levels : Nat} {id : SpanId} {path : List Nat} :
    path ∈ children.linesWithin levels id ↔
      path ∈ children.linesFrom id ∧ path.length < levels := by
  induction levels generalizing id path with
  | zero => simp [linesWithin]
  | succ levels ih =>
    rw [linesWithin, List.mem_cons, List.mem_flatMap]
    constructor
    · rintro (rfl | ⟨⟨c, i⟩, hc, hpath⟩)
      · exact ⟨nil_mem_linesFrom id, Nat.succ_pos levels⟩
      · obtain ⟨rest, hrest, rfl⟩ := List.mem_map.1 hpath
        obtain ⟨hline, hlength⟩ := ih.1 hrest
        have hi := List.mem_zipIdx_iff_getElem?.1 hc
        exact ⟨cons_mem_linesFrom.2 ⟨c, hi, hline⟩, Nat.succ_lt_succ hlength⟩
    · rintro ⟨hline, hlength⟩
      cases path with
      | nil => exact Or.inl rfl
      | cons i rest =>
        obtain ⟨c, hi, hrest⟩ := cons_mem_linesFrom.1 hline
        refine Or.inr ⟨(c, i), List.mem_zipIdx_iff_getElem?.2 hi, ?_⟩
        exact List.mem_map_of_mem (ih.2 ⟨hrest, Nat.lt_of_succ_lt_succ hlength⟩)

/-- The lines are listed depth first: by the first positions at which they part, earlier ones
    first, and where they do not part the shorter one first. -/
theorem pairwise_linesWithin (levels : Nat) (id : SpanId) :
    (children.linesWithin levels id).Pairwise (· < ·) := by
  induction levels generalizing id with
  | zero => exact List.Pairwise.nil
  | succ levels ih =>
    rw [linesWithin, List.pairwise_cons, List.pairwise_flatMap]
    refine ⟨fun path hpath => ?_, fun c _ => List.pairwise_map.2 ?_, ?_⟩
    · obtain ⟨c, -, hpath⟩ := List.mem_flatMap.1 hpath
      obtain ⟨rest, -, rfl⟩ := List.mem_map.1 hpath
      exact List.Lex.nil
    · exact (ih c.1).imp List.Lex.cons
    · -- lines through different positions differ at once
      have hpositions : ((children.of id).zipIdx.map Prod.snd).Pairwise (· < ·) := by
        rw [List.zipIdx_map_snd]
        exact List.pairwise_lt_range'
      refine (List.pairwise_map.1 hpositions).imp fun {c d} hcd p hp q hq => ?_
      obtain ⟨p, -, rfl⟩ := List.mem_map.1 hp
      obtain ⟨q, -, rfl⟩ := List.mem_map.1 hq
      exact List.Lex.rel hcd

theorem nodup_linesWithin (levels : Nat) (id : SpanId) :
    (children.linesWithin levels id).Nodup :=
  (pairwise_linesWithin levels id).imp ne_of_lt

/-- The descent lists the ends of the lines. -/
theorem map_follow_linesWithin (levels : Nat) (id : SpanId) :
    (children.linesWithin levels id).map (children.follow · id) =
      (children.descent levels id).map some := by
  induction levels generalizing id with
  | zero => rfl
  | succ levels ih =>
    have hchild : ∀ c ∈ (children.of id).zipIdx,
        ((children.linesWithin levels c.1).map (c.2 :: ·)).map (children.follow · id) =
          (children.descent levels c.1).map some := by
      intro c hc
      rw [List.map_map, ← ih c.1]
      refine List.map_congr_left fun path _ => ?_
      show (children.of id)[c.2]?.bind (children.follow path) = _
      rw [List.mem_zipIdx_iff_getElem?.1 hc]
      rfl
    rw [linesWithin, descent, List.map_cons, List.map_cons, List.map_flatMap, List.map_flatMap,
      List.flatMap_congr hchild]
    conv_rhs => rw [← List.zipIdx_map_fst 0 (children.of id), List.flatMap_map]
    rfl

/-- There are as many lines as there are ends of lines. -/
theorem length_linesWithin (levels : Nat) (id : SpanId) :
    (children.linesWithin levels id).length = (children.descent levels id).length := by
  have hends : ((children.linesWithin levels id).map (children.follow · id)).length = _ :=
    congrArg List.length (map_follow_linesWithin levels id)
  rwa [List.length_map, List.length_map] at hends

/-- **If all lines are short**, there are finitely many, one for each end in the descent. -/
theorem linesFrom_of_shallow {limit : Nat} {id : SpanId} (h : children.Shallow limit id) :
    (children.linesFrom id).Finite ∧
      (children.linesFrom id).ncard = (children.descent limit id).length := by
  have hset : children.linesFrom id =
      ((children.linesWithin limit id).toFinset : Set (List Nat)) := by
    ext path
    rw [Finset.mem_coe, List.mem_toFinset, mem_linesWithin]
    exact ⟨fun hpath => ⟨hpath, h path hpath⟩, And.left⟩
  rw [hset]
  refine ⟨Finset.finite_toSet _, ?_⟩
  rw [Set.ncard_coe_finset, List.toFinset_card_of_nodup (nodup_linesWithin limit id),
    length_linesWithin]

/-! ## Lines that never end -/

/-- From a span it goes on for ever, from one child to the next. -/
def Endless (children : Children) (id : SpanId) : Prop :=
  ∃ line : Nat → SpanId, line 0 = id ∧ ∀ n, line (n + 1) ∈ children.of (line n)

/-- **Where no line goes on for ever**, there is a length that none of them has.  Every span has
    finitely many children, so that the lengths from all of them are bounded together. -/
theorem not_endless_iff {id : SpanId} :
    ¬children.Endless id ↔ ∃ n, children.generation n id = [] := by
  constructor
  · intro h
    have hacc : Acc (fun c p => c ∈ children.of p) id :=
      acc_iff_isEmpty_descending_chain.2 ⟨fun line => h ⟨line.1, line.2⟩⟩
    clear h
    induction hacc with
    | intro id _ ih =>
      have hbound : ∀ c, ∃ n, c ∈ children.of id → children.generation n c = [] := by
        intro c
        by_cases hc : c ∈ children.of id
        · obtain ⟨n, hn⟩ := ih c hc
          exact ⟨n, fun _ => hn⟩
        · exact ⟨0, fun h => absurd h hc⟩
      choose bound hbound using hbound
      -- the sum of the bounds is a bound for every child
      refine ⟨((children.of id).map bound).sum + 1, generation_succ_eq_nil_iff.2 fun c hc => ?_⟩
      exact generation_eq_nil_of_le (List.le_sum_of_mem (List.mem_map_of_mem hc)) (hbound c hc)
  · rintro ⟨n, hn⟩ ⟨line, rfl, hline⟩
    have hmem : ∀ k, line k ∈ children.generation k (line 0) := by
      intro k
      induction k with
      | zero => exact mem_generation_zero.2 rfl
      | succ k ih => exact mem_generation_succ_last.2 ⟨line k, ih, hline k⟩
    exact List.ne_nil_of_mem (hmem n) hn

/-! ## What counting finds -/

/-- Adding up the counts of several spans fails at the first that cannot be counted. -/
theorem exists_of_foldlM_add_eq_error {f : SpanId → Except SpanId Nat} {ids : List SpanId}
    {count : Nat} {e : SpanId}
    (h : ids.foldlM (fun count c => (count + ·) <$> f c) count = .error e) :
    ∃ before c after, ids = before ++ c :: after ∧ (∀ d ∈ before, ∃ n, f d = .ok n) ∧
      f c = .error e := by
  induction ids generalizing count with
  | nil => cases h
  | cons c ids ih =>
    rw [List.foldlM_cons] at h
    cases hc : f c with
    | error e' =>
      rw [hc] at h
      obtain rfl : e' = e := Except.error.inj h
      exact ⟨[], c, ids, rfl, fun d hd => absurd hd List.not_mem_nil, hc⟩
    | ok n =>
      rw [hc] at h
      obtain ⟨before, d, after, rfl, hbefore, hd⟩ := ih h
      refine ⟨c :: before, d, after, rfl, ?_, hd⟩
      exact List.forall_mem_cons.2 ⟨⟨n, hc⟩, hbefore⟩

/-- **A count** is the number of lines, and none of these is too long. -/
theorem lines_eq_ok {limit : Nat} {id : SpanId} {n : Nat} (h : children.lines limit id = .ok n) :
    children.Shallow limit id ∧ n = (children.linesFrom id).ncard := by
  obtain ⟨hend, hn⟩ := lines_eq_ok_iff.1 h
  have hshallow := shallow_iff.2 hend
  exact ⟨hshallow, hn.trans (linesFrom_of_shallow hshallow).2.symm⟩

/-- **What is found beyond the limit** ends the greatest of the lines that go one step too far.  The
    induction goes down that line: at every span it takes the last child with such a line, since
    the children after it have all been counted. -/
theorem lines_eq_error {limit : Nat} {id e : SpanId} (h : children.lines limit id = .error e) :
    ∃ path, IsGreatest {p ∈ children.linesFrom id | p.length = limit} path ∧
      children.follow path id = some e := by
  induction limit generalizing id with
  | zero =>
    obtain rfl : id = e := Except.error.inj h
    refine ⟨[], ⟨⟨nil_mem_linesFrom id, rfl⟩, ?_⟩, rfl⟩
    rintro p ⟨-, hp⟩
    obtain rfl := List.length_eq_zero_iff.1 hp
    exact le_refl _
  | succ limit ih =>
    rw [lines] at h
    obtain ⟨later, c, earlier, hreverse, hlater, hc⟩ := exists_of_foldlM_add_eq_error h
    have hof : children.of id = earlier.reverse ++ c :: later.reverse := by
      have := congrArg List.reverse hreverse
      simpa using this
    -- children are counted from behind, and positions from the front
    have hi : (children.of id)[earlier.length]? = some c := by
      rw [hof, ← List.length_reverse, List.getElem?_append_right (Nat.le_refl _), Nat.sub_self]
      rfl
    obtain ⟨path, ⟨⟨hline, hlength⟩, hgreatest⟩, hend⟩ := ih hc
    refine ⟨earlier.length :: path, ⟨⟨cons_mem_linesFrom.2 ⟨c, hi, hline⟩, ?_⟩, ?_⟩, ?_⟩
    · exact congrArg (· + 1) hlength
    · rintro p ⟨hp, hplength⟩
      cases p with
      | nil => exact absurd hplength (Nat.succ_ne_zero limit).symm
      | cons j q =>
        obtain ⟨d, hj, hq⟩ := cons_mem_linesFrom.1 hp
        have hqlength : q.length = limit := Nat.succ.inj hplength
        rcases Nat.lt_trichotomy j earlier.length with hlt | rfl | hgt
        · exact le_of_lt (List.Lex.rel hlt)
        · obtain rfl := Option.some.inj (hi.symm.trans hj)
          rcases eq_or_lt_of_le (hgreatest ⟨hq, hqlength⟩) with rfl | hlt
          · exact le_refl _
          · exact le_of_lt (List.Lex.cons hlt)
        · -- a later child has been counted, so that it has no line this long
          have hd : d ∈ later := by
            obtain ⟨k, rfl⟩ := Nat.exists_eq_add_of_lt hgt
            rw [hof, ← List.length_reverse, Nat.add_assoc, List.getElem?_append_right (by omega),
              Nat.add_sub_cancel_left, List.getElem?_cons_succ] at hj
            exact List.mem_reverse.1 (List.mem_of_getElem? hj)
          obtain ⟨n, hn⟩ := hlater d hd
          have hshort := (lines_eq_ok hn).1 q hq
          omega
    · rw [follow, hi]
      exact hend

end SpanChart.Children
