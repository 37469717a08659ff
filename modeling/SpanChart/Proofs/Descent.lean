/-
  DESCENT — the lines of descent in a lineage, generation by generation.

  A lineage is an arbitrary grouping: ids may repeat in a group and between groups, and lines of
  descent may run in circles.  What is below a span is therefore counted in lines and not in spans.
  `generation k` lists where the lines of `k` steps end, and `descent levels` where all lines of
  fewer than `levels` steps end, depth first.  Two walks of the program are read off them:

  1. `lines_eq_ok_iff` — counting lines succeeds exactly if no line is longer than the limit, and
     then the count is that of the descent.

  2. `generation_size` — if lines end at all, none is longer than there are parents, and one more.
     So a chart of a span needs no more levels than that, whatever the limit was.  The crux is that
     a span below itself starts a line of any length (`generation_ne_nil_of_loop`); lines that end
     have no such span, and every step down leaves fewer parents to come.

  Where every span has one parent and the root has none, a line is determined by its end.  The
  descent from the root has no repetitions then (`nodup_descent`), which is what makes the number of
  lines the number of spans.
-/
import Mathlib
import SpanChart.Trace.Lineage

namespace SpanChart.Children

variable {children : Children}

/-! ## Generations -/

/-- Where the lines of descent from `id` of so many steps end, once for each line. -/
def generation (children : Children) : Nat → SpanId → List SpanId
  | 0, id => [id]
  | k + 1, id => (children.of id).flatMap (generation children k)

/-- Where the lines of descent from `id` of at most `levels` spans end, once for each line and depth
    first: a span before its children, and these in order. -/
def descent (children : Children) : Nat → SpanId → List SpanId
  | 0, _ => []
  | levels + 1, id => id :: (children.of id).flatMap (descent children levels)

theorem mem_generation_zero {id x : SpanId} : x ∈ children.generation 0 id ↔ x = id :=
  List.mem_singleton

theorem mem_generation_succ {k : Nat} {id x : SpanId} :
    x ∈ children.generation (k + 1) id ↔ ∃ c ∈ children.of id, x ∈ children.generation k c :=
  List.mem_flatMap

/-- Lines can be put together and taken apart. -/
theorem generation_add (children : Children) (j k : Nat) (id : SpanId) :
    children.generation (j + k) id =
      (children.generation j id).flatMap (children.generation k) := by
  induction j generalizing id with
  | zero => simp [generation]
  | succ j ih =>
    rw [Nat.succ_add, generation, generation, List.flatMap_assoc]
    exact congrArg (List.flatMap · _) (funext ih)

/-- The last step of a line goes from a parent to a child. -/
theorem mem_generation_succ_last {k : Nat} {id x : SpanId} :
    x ∈ children.generation (k + 1) id ↔ ∃ p ∈ children.generation k id, x ∈ children.of p := by
  rw [generation_add, List.mem_flatMap]
  simp [generation]

/-- Where lines of one length have ended, there are no longer ones. -/
theorem generation_eq_nil_of_le {m n : Nat} {id : SpanId} (hmn : m ≤ n)
    (h : children.generation m id = []) : children.generation n id = [] := by
  obtain ⟨k, rfl⟩ := Nat.exists_eq_add_of_le hmn
  rw [generation_add, h, List.flatMap_nil]

/-- Lines from a span end within `k + 1` steps if those from all its children do within `k`. -/
theorem generation_succ_eq_nil_iff {k : Nat} {id : SpanId} :
    children.generation (k + 1) id = [] ↔ ∀ c ∈ children.of id, children.generation k c = [] := by
  rw [generation, List.flatMap_eq_nil_iff]

/-- The descent takes up the generations. -/
theorem mem_descent {levels : Nat} {id x : SpanId} :
    x ∈ children.descent levels id ↔ ∃ k < levels, x ∈ children.generation k id := by
  induction levels generalizing id with
  | zero => simp [descent]
  | succ levels ih =>
    rw [descent, List.mem_cons, List.mem_flatMap]
    constructor
    · rintro (rfl | ⟨c, hc, hx⟩)
      · exact ⟨0, Nat.succ_pos _, mem_generation_zero.2 rfl⟩
      · obtain ⟨k, hk, hx⟩ := ih.1 hx
        exact ⟨k + 1, by omega, mem_generation_succ.2 ⟨c, hc, hx⟩⟩
    · rintro ⟨k, hk, hx⟩
      cases k with
      | zero => exact Or.inl (mem_generation_zero.1 hx)
      | succ k =>
        obtain ⟨c, hc, hx⟩ := mem_generation_succ.1 hx
        exact Or.inr ⟨c, hc, ih.2 ⟨k, by omega, hx⟩⟩

/-- Where the lines have ended, the descent has all of them. -/
theorem mem_descent_of_mem_generation {levels k : Nat} {id x : SpanId}
    (hend : children.generation levels id = []) (hx : x ∈ children.generation k id) :
    x ∈ children.descent levels id := by
  refine mem_descent.2 ⟨k, ?_, hx⟩
  by_contra hk
  exact List.ne_nil_of_mem hx (generation_eq_nil_of_le (not_lt.1 hk) hend)

theorem mem_descent_self (children : Children) (levels : Nat) (id : SpanId) :
    id ∈ children.descent (levels + 1) id :=
  List.mem_cons_self

/-- What is below a child is below its parent. -/
theorem mem_descent_of_child {levels : Nat} {id c x : SpanId} (hc : c ∈ children.of id)
    (hx : x ∈ children.descent levels c) : x ∈ children.descent (levels + 1) id :=
  List.mem_cons_of_mem _ (List.mem_flatMap.2 ⟨c, hc, hx⟩)

/-! ## Counting lines -/

/-- Adding up the counts of several spans: it succeeds if all of them can be counted. -/
theorem foldlM_add_eq_ok_iff {f : SpanId → Except SpanId Nat} {P : SpanId → Prop}
    {size : SpanId → Nat} {ids : List SpanId} (h : ∀ c ∈ ids, ∀ n, f c = .ok n ↔ P c ∧ n = size c)
    {count n : Nat} :
    ids.foldlM (fun count c => (count + ·) <$> f c) count = .ok n ↔
      (∀ c ∈ ids, P c) ∧ n = count + (ids.map size).sum := by
  induction ids generalizing count with
  | nil =>
    show Except.ok count = Except.ok n ↔ _
    simp [eq_comm]
  | cons c ids ih =>
    have hc := h c List.mem_cons_self
    rw [List.foldlM_cons, List.forall_mem_cons, List.map_cons, List.sum_cons, ← Nat.add_assoc]
    cases hf : f c with
    | error e =>
      -- were `c` countable, `f` would have counted it
      have : ¬P c := fun hP => by simpa [hf] using (hc (size c)).2 ⟨hP, rfl⟩
      simp [this, bind, Except.bind, Functor.map, Except.map]
    | ok m =>
      obtain ⟨hP, rfl⟩ := (hc m).1 hf
      simp only [hP, true_and]
      exact ih fun d hd => h d (List.mem_cons_of_mem _ hd)

/-- **Counting the lines of descent** succeeds exactly if none of them is longer than the limit,
    and then the count is the length of the descent. -/
theorem lines_eq_ok_iff {limit : Nat} {id : SpanId} {n : Nat} :
    children.lines limit id = .ok n ↔
      children.generation limit id = [] ∧ n = (children.descent limit id).length := by
  induction limit generalizing id n with
  | zero => simp [lines, generation]
  | succ limit ih =>
    rw [lines, foldlM_add_eq_ok_iff fun c _ _ => ih, generation_succ_eq_nil_iff, descent,
      List.length_cons, List.length_flatMap, List.map_reverse, List.sum_reverse, Nat.add_comm 1]
    simp

/-! ## Lines that end -/

/-- From a span that descends from itself there are lines of any length. -/
theorem generation_ne_nil_of_loop {k : Nat} {id : SpanId}
    (hloop : id ∈ children.generation (k + 1) id) (n : Nat) : children.generation n id ≠ [] := by
  have hround : ∀ m, id ∈ children.generation (m * (k + 1)) id := by
    intro m
    induction m with
    | zero => rw [Nat.zero_mul]; exact mem_generation_zero.2 rfl
    | succ m ih =>
      rw [Nat.succ_mul, generation_add]
      exact List.mem_flatMap.2 ⟨id, ih, hloop⟩
  intro h
  have hend := generation_eq_nil_of_le (Nat.le_mul_of_pos_right n (Nat.succ_pos k)) h
  exact List.ne_nil_of_mem (hround n) hend

/-- Lines that end have at most one span more than there are parents on the way.  The induction is
    on these: no line from a child comes back to its parent, so that there is one less to come. -/
theorem generation_card {n : Nat} (parents : Finset SpanId) {id : SpanId}
    (hparents : ∀ k, ∀ p ∈ children.generation k id, children.of p ≠ [] → p ∈ parents)
    (hend : children.generation n id = []) : children.generation (parents.card + 1) id = [] := by
  induction h : parents.card generalizing parents id n with
  | zero =>
    rw [Finset.card_eq_zero] at h
    by_contra hne
    have hid : children.of id ≠ [] := fun hof => hne (by simp [generation, hof])
    exact Finset.notMem_empty id (h ▸ hparents 0 id (mem_generation_zero.2 rfl) hid)
  | succ size ih =>
    rw [generation_succ_eq_nil_iff]
    intro c hc
    have hid : id ∈ parents :=
      hparents 0 id (mem_generation_zero.2 rfl) (List.ne_nil_of_mem hc)
    -- from the child on, `id` is no parent any more: a line that came back to it would never end
    refine ih (n := n) (parents.erase id) ?_ ?_ ?_
    · intro k p hp hof
      have hbelow : p ∈ children.generation (k + 1) id := mem_generation_succ.2 ⟨c, hc, hp⟩
      refine Finset.mem_erase.2 ⟨?_, hparents (k + 1) p hbelow hof⟩
      rintro rfl
      exact generation_ne_nil_of_loop hbelow n hend
    · exact generation_succ_eq_nil_iff.1 (generation_eq_nil_of_le (Nat.le_succ n) hend) c hc
    · rw [Finset.card_erase_of_mem hid, h, Nat.add_sub_cancel]

/-- A span that has children is one of the parents. -/
theorem mem_keys_of_of_ne_nil {p : SpanId} (h : children.of p ≠ []) : p ∈ children.keys := by
  rw [Std.TreeMap.mem_keys]
  by_contra hp
  exact h (Std.TreeMap.getD_eq_fallback hp)

/-- **Lines that end** end within as many spans as there are parents, and one more. -/
theorem generation_size {n : Nat} {id : SpanId} (h : children.generation n id = []) :
    children.generation (children.size + 1) id = [] := by
  have hcard : children.keys.toFinset.card ≤ children.size := by
    rw [← Std.TreeMap.length_keys]
    exact List.toFinset_card_le _
  refine generation_eq_nil_of_le (Nat.succ_le_succ hcard) (generation_card _ ?_ h)
  exact fun k p _ hof => List.mem_toFinset.2 (mem_keys_of_of_ne_nil hof)

/-! ## One parent each -/

/-- No span is listed twice, be it under one parent or under two. -/
structure SingleParent (children : Children) : Prop where
  nodup : ∀ p, (children.of p).Nodup
  unique : ∀ {c p q}, c ∈ children.of p → c ∈ children.of q → p = q

namespace SingleParent

/-- A line of so many steps is determined by its end, from where it started on. -/
theorem start_unique (h : children.SingleParent) {k : Nat} {a b x : SpanId}
    (ha : x ∈ children.generation k a) (hb : x ∈ children.generation k b) : a = b := by
  induction k generalizing x with
  | zero => exact (mem_generation_zero.1 ha).symm.trans (mem_generation_zero.1 hb)
  | succ k ih =>
    obtain ⟨p, hp, hxp⟩ := mem_generation_succ_last.1 ha
    obtain ⟨q, hq, hxq⟩ := mem_generation_succ_last.1 hb
    obtain rfl := h.unique hxp hxq
    exact ih hp hq

/-- No span is in two generations below a root. -/
theorem depth_unique (h : children.SingleParent) {root : SpanId}
    (hroot : ∀ p, root ∉ children.of p) {j k : Nat} {x : SpanId}
    (hj : x ∈ children.generation j root) (hk : x ∈ children.generation k root) : j = k := by
  induction j generalizing x k with
  | zero =>
    obtain rfl := mem_generation_zero.1 hj
    cases k with
    | zero => rfl
    | succ k =>
      obtain ⟨p, _, hp⟩ := mem_generation_succ_last.1 hk
      exact absurd hp (hroot p)
  | succ j ih =>
    -- one parent, one generation up on either line
    obtain ⟨p, hpj, hxp⟩ := mem_generation_succ_last.1 hj
    cases k with
    | zero =>
      obtain rfl := mem_generation_zero.1 hk
      exact absurd hxp (hroot p)
    | succ k =>
      obtain ⟨q, hqk, hxq⟩ := mem_generation_succ_last.1 hk
      obtain rfl := h.unique hxp hxq
      rw [ih hpj hqk]

/-- **Below a root no span is met twice.**  Two lines to one span would have to part somewhere, at
    some span `p` below the root, and then that span would be in two generations or have two
    parents. -/
theorem nodup_descent (h : children.SingleParent) {root : SpanId}
    (hroot : ∀ p, root ∉ children.of p) (levels : Nat) {j : Nat} {p : SpanId}
    (hp : p ∈ children.generation j root) : (children.descent levels p).Nodup := by
  induction levels generalizing p j with
  | zero => exact List.nodup_nil
  | succ levels ih =>
    -- generations below `p` are generations of the root, of which each span has one
    have below : ∀ {k c x}, c ∈ children.of p → x ∈ children.generation k c →
        x ∈ children.generation (j + (k + 1)) root := by
      intro k c x hc hx
      rw [generation_add]
      exact List.mem_flatMap.2 ⟨p, hp, mem_generation_succ.2 ⟨c, hc, hx⟩⟩
    rw [descent, List.nodup_cons, List.nodup_flatMap]
    refine ⟨?_, ?_, ?_⟩
    · intro hmem
      obtain ⟨c, hc, hmem⟩ := List.mem_flatMap.1 hmem
      obtain ⟨k, _, hpk⟩ := mem_descent.1 hmem
      have := h.depth_unique hroot hp (below hc hpk)
      omega
    · exact fun c hc => ih (mem_generation_succ_last.2 ⟨p, hp, hc⟩)
    · refine (h.nodup p).imp_of_mem ?_
      intro c d hc hd hcd x hxc hxd
      obtain ⟨k, _, hk⟩ := mem_descent.1 hxc
      obtain ⟨l, _, hl⟩ := mem_descent.1 hxd
      -- as deep below `c` as below `d`, so that lines go up from `x` side by side and meet
      have := h.depth_unique hroot (below hc hk) (below hd hl)
      obtain rfl : k = l := by omega
      exact hcd (h.start_unique hk hl)

end SingleParent

end SpanChart.Children
