/-
  STRAYS — the spans that a survey misses.

  In a trace whose spans can be registered every parent is known.  Following parents from a span
  therefore goes on until it gets to a root or for ever, and for ever means in a circle, since there
  are finitely many spans: every span climbs to a root or circles, and none does both
  (`circles_iff`).

  A walk down from the only root does not notice the circles.  It meets the spans that climb to the
  root, each of them once and at the depth of its climb, and nothing else (`walk_misses_circles`).
  Nothing is remembered of earlier visits for that: spans have one parent each, so that what is
  still ahead of the walk has no repetitions to begin with (`nodup_ahead`), and every visit takes
  one off it.  What is missing from the count is then the number of spans that circle, and since
  no more spans are met than there are, the difference of the two words does not wrap.
-/
import SpanChart.Proofs.Acceptance
import SpanChart.Proofs.Walking

namespace SpanChart

variable {α : Type} {trace : Trace α}

/-! ## Circles -/

/-- One step up in a trace, from a span to its parent. -/
structure ParentIn (trace : Trace α) (s t : Span α) : Prop where
  child : s ∈ trace
  parent : t ∈ trace
  given : s.parent ≠ noParent
  named : t.id = s.parent

/-- Following parents from a span runs into a circle: it gets to a span that is above itself. -/
def Circles (trace : Trace α) (s : Span α) : Prop :=
  ∃ t, Relation.ReflTransGen (ParentIn trace) s t ∧ Relation.TransGen (ParentIn trace) t t

section Circles

variable (distinct : (trace.map Span.id).Nodup)

include distinct

/-- The climb from the parent is one span shorter. -/
theorem Climbs.of_parentIn {n : Nat} {s t : Span α} (h : Climbs trace n s)
    (hst : ParentIn trace s t) : ∃ m, n = m + 1 ∧ Climbs trace m t := by
  cases h with
  | root _ hroot => exact absurd hroot hst.given
  | up _ _ hu climb =>
    obtain rfl := eq_of_id_eq distinct climb.mem hst.parent (hu.trans hst.named.symm)
    exact ⟨_, rfl, climb⟩

theorem Climbs.of_reflTransGen {n : Nat} {s t : Span α} (h : Climbs trace n s)
    (hst : Relation.ReflTransGen (ParentIn trace) s t) : ∃ m ≤ n, Climbs trace m t := by
  induction hst with
  | refl => exact ⟨n, le_refl n, h⟩
  | tail _ hstep ih =>
    obtain ⟨m, hm, climb⟩ := ih
    obtain ⟨k, rfl, climb'⟩ := climb.of_parentIn distinct hstep
    exact ⟨k, by omega, climb'⟩

/-- Whoever climbs does not circle: on a circle the climb would be shorter after every round. -/
theorem Climbs.not_circles {n : Nat} {s : Span α} (h : Climbs trace n s) : ¬Circles trace s := by
  rintro ⟨t, hst, hround⟩
  obtain ⟨m, -, climb⟩ := h.of_reflTransGen distinct hst
  obtain ⟨u, hstep, hback⟩ := Relation.TransGen.head'_iff.1 hround
  obtain ⟨k, rfl, climb'⟩ := climb.of_parentIn distinct hstep
  obtain ⟨l, hl, climb''⟩ := climb'.of_reflTransGen distinct hback
  have := climb.length_unique distinct climb''
  omega

end Circles

/-- Among finitely many, whoever goes on and on comes round. -/
theorem exists_circle {β : Type} [Finite β] {r : β → β → Prop} (onward : ∀ b, ∃ c, r b c) (b : β) :
    ∃ c, Relation.ReflTransGen r b c ∧ Relation.TransGen r c c := by
  choose next hnext using onward
  have hfrom : ∀ i k, Relation.ReflTransGen r (next^[i] b) (next^[i + k] b) := by
    intro i k
    induction k with
    | zero => exact .refl
    | succ k ih =>
      rw [← Nat.add_assoc, Function.iterate_succ_apply']
      exact ih.tail (hnext _)
  -- where the way comes back to a place, it has gone round at least one step
  have hround : ∀ i j, i < j → next^[i] b = next^[j] b →
      Relation.TransGen r (next^[i] b) (next^[i] b) := by
    intro i j hij heq
    obtain ⟨k, rfl⟩ := Nat.exists_eq_add_of_lt hij
    have hstep : r (next^[i + k] b) (next^[i + k + 1] b) := by
      rw [Function.iterate_succ_apply']
      exact hnext _
    rw [← heq] at hstep
    exact .tail' (hfrom i k) hstep
  have hstart : ∀ i, Relation.ReflTransGen r b (next^[i] b) := fun i => by
    have := hfrom 0 i
    rwa [Nat.zero_add] at this
  -- there are more steps than places
  obtain ⟨i, j, hne, heq⟩ := Finite.exists_ne_map_eq_of_infinite fun n => next^[n] b
  rcases Nat.lt_or_gt_of_ne hne with hij | hji
  · exact ⟨_, hstart i, hround i j hij heq⟩
  · exact ⟨_, hstart j, hround j i hji heq.symm⟩

/-- Whoever does not climb circles: above such a span is another one, and there are finitely
    many. -/
theorem circles_of_not_climbs
    (parents : ∀ s ∈ trace, s.parent ≠ noParent → ∃ t ∈ trace, t.id = s.parent)
    {s : Span α} (hs : s ∈ trace) (h : ∀ n, ¬Climbs trace n s) : Circles trace s := by
  have hfinite : Finite {t // t ∈ trace ∧ ∀ n, ¬Climbs trace n t} :=
    Set.Finite.subset (List.finite_toSet trace) fun t ht => ht.1
  have honward : ∀ t : {t // t ∈ trace ∧ ∀ n, ¬Climbs trace n t},
      ∃ u : {t // t ∈ trace ∧ ∀ n, ¬Climbs trace n t}, ParentIn trace t.1 u.1 := by
    rintro ⟨t, ht, hclimbs⟩
    have hgiven : t.parent ≠ noParent := fun hroot => hclimbs 1 (.root ht hroot)
    obtain ⟨u, hu, hid⟩ := parents t ht hgiven
    refine ⟨⟨u, hu, fun n climb => ?_⟩, ⟨ht, hu, hgiven, hid⟩⟩
    exact hclimbs (n + 1) (.up ht hgiven hid climb)
  obtain ⟨c, hreach, hround⟩ := exists_circle honward ⟨s, hs, h⟩
  exact ⟨c.1, hreach.lift Subtype.val fun _ _ => id, hround.lift Subtype.val fun _ _ => id⟩

/-- **A span circles exactly if it climbs nowhere.** -/
theorem circles_iff (distinct : (trace.map Span.id).Nodup)
    (parents : ∀ s ∈ trace, s.parent ≠ noParent → ∃ t ∈ trace, t.id = s.parent)
    {s : Span α} (hs : s ∈ trace) : Circles trace s ↔ ¬∃ n, Climbs trace n s := by
  constructor
  · rintro hcircles ⟨n, climb⟩
    exact climb.not_circles distinct hcircles
  · exact fun h => circles_of_not_climbs parents hs fun n climb => h ⟨n, climb⟩

/-! ## Walks below the only root -/

namespace Walk

section Root

variable (distinct : (trace.map Span.id).Nodup) {r : Span α}
  (hroots : trace.filter Span.isRoot = [r])

include distinct hroots

/-- Nothing is ahead of a walk twice. -/
theorem nodup_ahead {w : Walk} (h : Reaches (Children.ofTrace trace) (start r.id) w) :
    (w.ahead (Children.ofTrace trace)).Nodup := by
  obtain ⟨hr, hroot⟩ := mem_of_filter_eq hroots
  have hdescent := (singleParent_ofTrace distinct).nodup_descent
    (root_notMem_of distinct hr hroot) (nestingLimit + 1) (Children.mem_generation_zero.2 rfl)
  have hstart : (start r.id).ahead (Children.ofTrace trace) =
      tour (Children.ofTrace trace) (nestingLimit + 1) r.id := List.append_nil _
  have htour :=
    (tour_perm_descent (Children.ofTrace trace) (nestingLimit + 1) r.id).nodup_iff.2 hdescent
  exact (hstart ▸ htour).sublist (ahead_of_reaches h).sublist

/-- A walk comes only to spans that climb to the root, and knows how far. -/
theorem climbs_of_next? {w : Walk} {id : SpanId} {depth : Nat}
    (h : Reaches (Children.ofTrace trace) (start r.id) w) (hnext : w.next? = some (id, depth)) :
    ∃ s ∈ trace, s.id = id ∧ Climbs trace depth s := by
  obtain ⟨k, -, rfl, hid⟩ := generation_of_pending h _ (List.mem_of_head? hnext)
  obtain ⟨s, hs, rfl⟩ := exists_mem_of_mem_generation (mem_of_filter_eq hroots).1 hid
  exact ⟨s, hs, rfl, (climbs_iff distinct hroots hs).2 hid⟩

/-- If no climb is too long, no line down from the root is. -/
theorem generation_eq_nil_of_climbs_le {levels : Nat}
    (hshort : ∀ s n, Climbs trace n s → n ≤ levels) :
    (Children.ofTrace trace).generation levels r.id = [] := by
  refine List.eq_nil_iff_forall_not_mem.2 fun id hid => ?_
  obtain ⟨s, hs, rfl⟩ := exists_mem_of_mem_generation (mem_of_filter_eq hroots).1 hid
  have := hshort s _ ((climbs_iff distinct hroots hs).2 hid)
  omega

/-- **No span is visited twice.** -/
theorem next?_ne {w w' : Walk} {p q : SpanId × Nat}
    (h : Reaches (Children.ofTrace trace) (start r.id) w)
    (hlater : Relation.TransGen (fun w w' => w.visit? (Children.ofTrace trace) = some w') w w')
    (hp : w.next? = some p) (hq : w'.next? = some q) : p.1 ≠ q.1 := by
  obtain ⟨v, hvisit, hrest⟩ := Relation.TransGen.head'_iff.1 hlater
  obtain ⟨id, depth, hnext, hahead⟩ := ahead_of_visit hvisit
  obtain rfl : (id, depth) = p := Option.some.inj (hnext.symm.trans hp)
  have hnodup := nodup_ahead distinct hroots h
  rw [hahead, List.nodup_cons] at hnodup
  -- the later span is among those that are ahead after this visit
  have hmem : q.1 ∈ w'.ahead (Children.ofTrace trace) := by
    have hpending := List.mem_of_head? hq
    obtain ⟨k, hk, hdepth, -⟩ := generation_of_pending ((h.tail hvisit).trans hrest) q hpending
    refine List.mem_flatMap.2 ⟨q, hpending, ?_⟩
    have hlevels : nestingLimit + 2 - q.2 = nestingLimit - k + 1 := by omega
    rw [hlevels, tour]
    exact List.mem_cons_self
  rintro rfl
  exact hnodup.1 ((ahead_of_reaches hrest).subset hmem)

end Root

end Walk

/-! ## What is missed -/

open Classical in
/-- How many spans of a trace circle. -/
noncomputable def strayCount (trace : Trace α) : Nat := trace.countP fun s => Circles trace s

theorem strayCount_eq_zero_iff : strayCount trace = 0 ↔ ¬∃ s ∈ trace, Circles trace s := by
  simp [strayCount]

/-- **The spans that are met and those that circle are all there are**, if none climbs too far. -/
theorem length_descent_add_strayCount (distinct : (trace.map Span.id).Nodup)
    (parents : ∀ s ∈ trace, s.parent ≠ noParent → ∃ t ∈ trace, t.id = s.parent) {r : Span α}
    (hroots : trace.filter Span.isRoot = [r]) {levels : Nat}
    (hshort : ∀ s n, Climbs trace n s → n ≤ levels) :
    ((Children.ofTrace trace).descent levels r.id).length + strayCount trace = trace.length := by
  classical
  have hmet : ∀ s ∈ trace,
      s.id ∈ (Children.ofTrace trace).descent levels r.id ↔ ¬Circles trace s := by
    intro s hs
    rw [mem_descent_iff_climbs distinct hroots hs, circles_iff distinct parents hs, not_not]
    constructor
    · rintro ⟨n, _, climb⟩
      exact ⟨n, climb⟩
    · rintro ⟨n, climb⟩
      exact ⟨n, hshort s n climb, climb⟩
  obtain ⟨hr, hroot⟩ := mem_of_filter_eq hroots
  -- the descent is the other spans, in some order
  have hperm : ((Children.ofTrace trace).descent levels r.id).Perm
      ((trace.filter fun s => ¬Circles trace s).map Span.id) := by
    have hdescent := (singleParent_ofTrace distinct).nodup_descent
      (root_notMem_of distinct hr hroot) levels (Children.mem_generation_zero.2 rfl)
    have hothers : ((trace.filter fun s => ¬Circles trace s).map Span.id).Nodup :=
      distinct.sublist (List.filter_sublist.map _)
    refine (List.perm_ext_iff_of_nodup hdescent hothers).2 fun id => ?_
    constructor
    · intro hid
      obtain ⟨k, _, hk⟩ := Children.mem_descent.1 hid
      obtain ⟨s, hs, rfl⟩ := exists_mem_of_mem_generation hr hk
      exact List.mem_map_of_mem (List.mem_filter.2 ⟨hs, decide_eq_true ((hmet s hs).1 hid)⟩)
    · intro hid
      obtain ⟨s, hs, rfl⟩ := List.mem_map.1 hid
      obtain ⟨hs, hother⟩ := List.mem_filter.1 hs
      exact (hmet s hs).2 (of_decide_eq_true hother)
  rw [hperm.length_eq, List.length_map, ← List.countP_eq_length_filter, strayCount, Nat.add_comm,
    List.length_eq_countP_add_countP (fun s => decide (Circles trace s))]
  simp only [decide_eq_true_eq]

/-- **A walk misses what circles.**  Below the only root of a trace that can be registered no span
    is visited twice, and none but those whose parents lead up to the root, in as many spans as the
    walk has gone down.  If these are never too many, the walk ends with a finding exactly if some
    span circles.  The number it reports is how many do, and together with those it has reached
    they are all the spans there are. -/
theorem walk_misses_circles [Scalar α] {register : Register α} {root : SpanId}
    (hregister : Register.ofTrace? trace = .ok register)
    (hroot : Lineage.root? (α := α) (Lineage.ofTrace trace).roots = .ok root) :
    (∀ w w' p q, Walk.Reaches (Lineage.ofTrace trace).children (.start root) w →
      Relation.TransGen (fun w w' => w.visit? (Lineage.ofTrace trace).children = some w') w w' →
      w.next? = some p → w'.next? = some q → p.1 ≠ q.1) ∧
    (∀ w id depth, Walk.Reaches (Lineage.ofTrace trace).children (.start root) w →
      w.next? = some (id, depth) → ∃ s ∈ trace, s.id = id ∧ Climbs trace depth s) ∧
    ((∀ s n, Climbs trace n s → n ≤ nestingLimit) →
      ∃ w, Walk.Reaches (Lineage.ofTrace trace).children (.start root) w ∧
        w.visit? (Lineage.ofTrace trace).children = none ∧
        w.reached.toNat + strayCount trace = trace.length ∧
        w.finding (α := α) root (UInt64.ofNat trace.length) =
          (Lineage.ofTrace trace).children.survey root (UInt64.ofNat trace.length) ∧
        (w.finding (α := α) root (UInt64.ofNat trace.length) ≠ none ↔
          ∃ s ∈ trace, Circles trace s) ∧
        ∀ defect, w.finding (α := α) root (UInt64.ofNat trace.length) = some defect →
          ∃ missed : UInt64, defect = .unreachable missed root ∧
            missed.toNat = strayCount trace) := by
  obtain ⟨registrable, -⟩ := Register.ofTrace?_eq_ok hregister
  have distinct := registrable.distinct
  obtain ⟨r, hroots, rfl⟩ := List.map_eq_singleton_iff.1 (Lineage.root?_eq_ok_iff.1 hroot)
  refine ⟨fun w w' p q => Walk.next?_ne distinct hroots,
    fun w id depth => Walk.climbs_of_next? distinct hroots, fun hshort => ?_⟩
  have parents := fun s hs hgiven => (registrable.parents s hs hgiven).2
  have hall := length_descent_add_strayCount distinct parents hroots hshort
  have hend := Walk.generation_eq_nil_of_climbs_le distinct hroots hshort
  obtain ⟨hreaches, hfinding⟩ := Walk.end_of_shallow (α := α) hend
  -- neither number is too large for a word
  have hsize := length_lt_size registrable.named distinct
  have hlength : (UInt64.ofNat trace.length).toNat = trace.length :=
    UInt64.toNat_ofNat_of_lt' hsize
  have hreached : (UInt64.ofNat ((Children.ofTrace trace).descent nestingLimit r.id).length).toNat =
      ((Children.ofTrace trace).descent nestingLimit r.id).length :=
    UInt64.toNat_ofNat_of_lt' (by omega)
  have hequal : UInt64.ofNat ((Children.ofTrace trace).descent nestingLimit r.id).length =
      UInt64.ofNat trace.length ↔ strayCount trace = 0 := by
    rw [← UInt64.toNat_inj, hreached, hlength]
    omega
  have hmissed : (UInt64.ofNat trace.length -
      UInt64.ofNat ((Children.ofTrace trace).descent nestingLimit r.id).length).toNat =
        strayCount trace := by
    rw [UInt64.toNat_sub_of_le _ _ (UInt64.le_iff_toNat_le.2 (by omega)), hreached, hlength]
    omega
  refine ⟨_, hreaches, rfl, by rw [hreached]; exact hall, hfinding _, ?_, fun defect hdefect => ?_⟩
  · rw [ne_eq, Walk.finding_nil_eq_none_iff, hequal, strayCount_eq_zero_iff, not_not]
  · exact ⟨_, Walk.finding_nil_eq_some hdefect, hmissed⟩

/-- A root with one child, and beside them two spans that are each other's parents and a third that
    hangs on these. -/
def ringBesideRoot : Trace Float :=
  [⟨1, noParent, 0, 10, 0, "main"⟩, ⟨2, 1, 1, 4, 1, "work"⟩, ⟨3, 4, 2, 3, 1, "lost"⟩,
    ⟨4, 3, 2, 3, 2, "lost"⟩, ⟨5, 4, 5, 6, 2, "lost"⟩]

/-- Three spans are lost, and the walk ends with their number. -/
theorem walk_misses_circles_of_ringBesideRoot :
    ∃ register, Register.ofTrace? ringBesideRoot = .ok register ∧
      Lineage.root? (α := Float) (Lineage.ofTrace ringBesideRoot).roots = .ok 1 ∧
      (∀ s n, Climbs ringBesideRoot n s → n ≤ nestingLimit) ∧
      ∃ w, Walk.Reaches (Lineage.ofTrace ringBesideRoot).children (.start 1) w ∧
        w.finding (α := Float) 1 5 = some (.unreachable 3 1) ∧ w.reached = 2 ∧
        strayCount ringBesideRoot = 3 := by
  have hsome : (Register.ofTrace? ringBesideRoot).toOption.isSome = true := by decide +kernel
  cases hregister : Register.ofTrace? ringBesideRoot with
  | error defect =>
    rw [hregister] at hsome
    cases hsome
  | ok register =>
    have hroot : Lineage.root? (α := Float) (Lineage.ofTrace ringBesideRoot).roots = .ok 1 := rfl
    have hshort : ∀ s n, Climbs ringBesideRoot n s → n ≤ nestingLimit := by
      intro s n climb
      have distinct := (Register.ofTrace?_eq_ok hregister).1.distinct
      have hend : (Children.ofTrace ringBesideRoot).generation 2 1 = [] := by decide +kernel
      cases n with
      | zero => exact Nat.zero_le _
      | succ k =>
        let root : Span Float := ⟨1, noParent, 0, 10, 0, "main"⟩
        have hmem := (climbs_iff distinct (r := root) rfl climb.mem).1 climb
        by_contra hlong
        have hdeep : 2 ≤ k := by
          unfold nestingLimit at hlong
          omega
        exact List.ne_nil_of_mem hmem (Children.generation_eq_nil_of_le hdeep hend)
    obtain ⟨w, hreaches, -, hall, hsurvey, -, hmissed⟩ :=
      (walk_misses_circles hregister hroot).2.2 hshort
    have hthree : (Lineage.ofTrace ringBesideRoot).children.survey (α := Float) 1 5 =
        some (.unreachable 3 1) := by decide +kernel
    have hfinding := hsurvey.trans hthree
    obtain ⟨missed, hdefect, hcount⟩ := hmissed _ hfinding
    obtain rfl : (3 : UInt64) = missed := (Defect.unreachable.inj hdefect).1
    refine ⟨register, rfl, hroot, hshort, w, hreaches, hfinding, ?_, hcount.symm⟩
    rw [← hcount] at hall
    rw [← UInt64.toNat_inj]
    exact Nat.add_right_cancel hall

end SpanChart
