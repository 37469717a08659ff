/-
  UNSEEN — what a layout does not show of its trace.

  Not every field of a span is looked at when it is charted, and which ones are depends on where the
  span stands:

  * whether it is a join matters if it has children, and other than that its tag says nothing;
  * a join of some children has no thread of its own in a chart;
  * the interval of such a join is looked at by its parent, and there only if that one's children
    took turns, for the idle time before it and after it.  The root and the parts of a join have
    nobody around them who would.

  `ShowsAs` allows a trace to be changed in all of this at once, at any of its spans.  Then the
  checks have nothing else to say (`exists_check_map`), and the family that the trace lists has the
  same chart (`chart?_revised`): going down it, the only times that one span reads off another are
  those of the children that took turns, and these are not free.
-/
import SpanChart.Proofs.Revisions

namespace SpanChart

variable {α : Type}

/-- The span is a join of some children. -/
def Trace.Joins (trace : Trace α) (s : Span α) : Prop :=
  s.isJoin = true ∧ trace.childrenOf s ≠ []

instance (trace : Trace α) (s : Span α) : Decidable (trace.Joins s) :=
  inferInstanceAs (Decidable (_ ∧ _))

/-- Nobody looks at the interval of the span: it is a join of some children, and has no parent or
    one whose children ran side by side. -/
def Trace.Untimed (trace : Trace α) (s : Span α) : Prop :=
  trace.Joins s ∧ (s.parent = noParent ∨ ∃ p ∈ trace, p.id = s.parent ∧ p.isJoin = true)

/-- In place of a span of the trace the other one would show as the same. -/
structure ShowsAs [Scalar α] (trace : Trace α) (s t : Span α) : Prop where
  id : t.id = s.id
  parent : t.parent = s.parent
  isJoin : trace.childrenOf s ≠ [] → t.isJoin = s.isJoin
  thread : ¬trace.Joins s → t.thread = s.thread
  times : t.start = s.start ∧ t.finish = s.finish ∨ trace.Untimed s ∧ t.start ≤ t.finish

/-! ## Changes as revisions -/

/-- Of two traces that agree span by span in who descends from whom, one is a revision of the
    other. -/
theorem exists_revision {trace other : Trace α} (distinct : (trace.map Span.id).Nodup)
    (h : List.Forall₂ (fun s t : Span α => t.id = s.id ∧ t.parent = s.parent) trace other) :
    ∃ revise : Span α → Span α, KeepsLineage revise ∧ trace.map revise = other := by
  induction h with
  | nil => exact ⟨id, ⟨fun _ => rfl, fun _ => rfl⟩, rfl⟩
  | @cons s t trace other hst _ ih =>
    rw [List.map_cons, List.nodup_cons] at distinct
    obtain ⟨revise, hkeeps, rfl⟩ := ih distinct.2
    obtain ⟨hid, hparent⟩ := hst
    -- the id tells the first span from the others
    let reviseFirst : Span α → Span α := fun u =>
      if u.id = s.id then { t with id := u.id, parent := u.parent } else revise u
    refine ⟨reviseFirst, ⟨fun u => ?_, fun u => ?_⟩, ?_⟩
    · by_cases hu : u.id = s.id
      · simp only [reviseFirst, if_pos hu]
      · simp only [reviseFirst, if_neg hu, hkeeps.id]
    · by_cases hu : u.id = s.id
      · simp only [reviseFirst, if_pos hu]
      · simp only [reviseFirst, if_neg hu, hkeeps.parent]
    · have hfirst : reviseFirst s = t := by
        simp only [reviseFirst, if_true, ← hid, ← hparent]
      rw [List.map_cons, hfirst]
      refine congrArg (t :: ·) (List.map_congr_left fun u hu => ?_)
      have hne : u.id ≠ s.id := fun hid => distinct.1 (hid ▸ List.mem_map_of_mem hu)
      simp only [reviseFirst, if_neg hne]

variable [Scalar α] {trace : Trace α} {revise : Span α → Span α}

/-! ## The checks -/

/-- What passes the checks passes them when it is changed where nobody looks. -/
theorem exists_check_map [Scalar.Ordered α] (hkeeps : KeepsLineage revise)
    (hshows : ∀ s ∈ trace, ShowsAs trace s (revise s))
    (h : ∃ checked, Layout.check trace = .ok checked) :
    ∃ checked, Layout.check (trace.map revise) = .ok checked := by
  rw [Layout.exists_check_iff] at h ⊢
  obtain ⟨tree, forwards⟩ := h
  refine ⟨hkeeps.rooted_map_iff.2 tree, List.forall_mem_map.2 fun s hs => ?_⟩
  rcases (hshows s hs).times with ⟨hstart, hfinish⟩ | ⟨-, hordered⟩
  · rw [hstart, hfinish]
    exact forwards s hs
  · exact Scalar.Ordered.not_lt_of_le hordered

/-! ## Charts -/

/-- The times of children that took turns are looked at. -/
theorem ShowsAs.times_of_turn (distinct : (trace.map Span.id).Nodup)
    (named : ∀ s ∈ trace, s.id ≠ noParent) {s t u : Span α} (hs : s ∈ trace)
    (hturn : s.isJoin = false) (ht : t ∈ trace.childrenOf s) (h : ShowsAs trace t u) :
    u.start = t.start ∧ u.finish = t.finish := by
  have hparent : t.parent = s.id := beq_iff_eq.1 (List.mem_filter.1 ht).2
  rcases h.times with hsame | ⟨⟨-, hroot | ⟨p, hp, hid, hjoin⟩⟩, -⟩
  · exact hsame
  · exact absurd (hparent.symm.trans hroot) (named s hs)
  · obtain rfl := eq_of_id_eq distinct hp hs (hid.trans hparent)
    rw [hturn] at hjoin
    cases hjoin

/-- **A family that is changed where nobody looks has the same chart.** -/
theorem Family.chart?_revised (distinct : (trace.map Span.id).Nodup)
    (named : ∀ s ∈ trace, s.id ≠ noParent) (hshows : ∀ s ∈ trace, ShowsAs trace s (revise s))
    {f : Family α} (hf : f.ListedIn trace) : (f.map revise).chart? = f.chart? := by
  induction f with
  | ofNode s fs ih =>
    cases hf with
    | node hs hheads hbranches =>
      have hshow := hshows s hs
      have hchart : ∀ f ∈ fs, (f.map revise).chart? = f.chart? :=
        fun f hmem => ih f hmem (hbranches f hmem)
      rw [map_node]
      by_cases hfs : fs = []
      · -- alone, it is a task whatever its tag
        subst hfs
        have hnone : trace.childrenOf s = [] := hheads.symm
        have halone : ¬trace.Joins s := fun h => h.2 hnone
        rcases hshow.times with ⟨hstart, hfinish⟩ | ⟨⟨hjoins, -⟩, -⟩
        · rw [List.map_nil, chart?, chart?, hstart, hfinish, hshow.thread halone]
        · exact absurd hjoins halone
      · have hmap : fs.map (map revise) ≠ [] := by
          rwa [ne_eq, List.map_eq_nil_iff]
        have hsome : trace.childrenOf s ≠ [] := by
          rwa [← hheads, ne_eq, List.map_eq_nil_iff]
        rw [chart?_of_ne_nil _ hmap, chart?_of_ne_nil _ hfs, hshow.isJoin hsome, charts?_map hchart]
        cases hjoin : s.isJoin with
        | true => rfl
        | false =>
          -- its own times are looked at, because it is no join, and so are those of its children
          have hturn : ¬trace.Joins s := fun h => Bool.eq_false_iff.1 hjoin h.1
          have htimes : ∀ f ∈ fs, (f.map revise).head.start = f.head.start ∧
              (f.map revise).head.finish = f.head.finish := by
            intro f hmem
            have hchild : f.head ∈ trace.childrenOf s := hheads ▸ List.mem_map_of_mem hmem
            rw [head_map]
            exact (hshows f.head (List.mem_filter.1 hchild).1).times_of_turn distinct named hs hjoin
              hchild
          rcases hshow.times with ⟨hstart, hfinish⟩ | ⟨⟨hjoins, -⟩, -⟩
          · rw [hstart, hfinish, hshow.thread hturn, turns?_map hchart htimes]
          · exact absurd hjoins hturn

/-! ## Layouts -/

namespace Layout

/-- **A layout does not show everything.**  Where a trace is laid out, another is laid out the same
    which agrees with it span by span up to the tags of spans without children, what the tags of
    spans with children say other than join, the threads of joins, and the intervals of joins that
    are the root or parts of joins. -/
theorem ofTrace_of_showsAs [Scalar.Ordered α] {trace other : Trace α} {layout : Layout α}
    (h : ofTrace trace = .ok layout) (hother : List.Forall₂ (ShowsAs trace) trace other) :
    ofTrace other = .ok layout := by
  have hcheck := exists_check_of_ofTrace h
  have hrooted := rooted_of_check hcheck
  obtain ⟨revise, hkeeps, rfl⟩ := exists_revision hrooted.distinct
    (hother.imp fun _ _ hshows => ⟨hshows.id, hshows.parent⟩)
  have hshows : ∀ s ∈ trace, ShowsAs trace s (revise s) := by
    rwa [List.forall₂_map_right_iff, List.forall₂_same] at hother
  obtain ⟨f, hf, hroot, -⟩ := exists_family_of_check hcheck
  have hroot' : (f.map revise).head.parent = noParent := by
    rw [Family.head_map, hkeeps.parent]
    exact hroot
  rw [ofTrace_eq_of_listedIn (exists_check_map hkeeps hshows hcheck) (hf.map hkeeps) hroot',
    Family.chart?_revised hrooted.distinct hrooted.named hshows hf,
    ← ofTrace_eq_of_listedIn hcheck hf hroot]
  exact h

/-- A join of a join and a span in turn, and of two more spans one of which is in turn as well. -/
def joinInJoin : Trace Float :=
  [⟨3, 2, 1, 4, 1, ""⟩, ⟨4, 2, 2, 8, 2, ""⟩, ⟨2, 1, 1, 9, 3, "join"⟩, ⟨5, 1, 0, 10, 0, "main"⟩,
    ⟨6, 5, 3, 4, 1, ""⟩, ⟨1, 0, 0, 10, 0, "join"⟩]

/-- The same with other times and threads for both joins and another mark for everybody else. -/
def joinInJoinRemarked : Trace Float :=
  [⟨3, 2, 1, 4, 1, "join"⟩, ⟨4, 2, 2, 8, 2, "b"⟩, ⟨2, 1, -7, 70, 8, "join"⟩,
    ⟨5, 1, 0, 10, 0, "loop"⟩, ⟨6, 5, 3, 4, 1, "join"⟩, ⟨1, 0, 5, 5, 9, "join"⟩]

theorem showsAs_joinInJoinRemarked :
    List.Forall₂ (ShowsAs joinInJoin) joinInJoin joinInJoinRemarked := by
  have hinner : joinInJoin.Untimed ⟨2, 1, 1, 9, 3, "join"⟩ :=
    ⟨⟨by decide, by decide⟩, .inr ⟨⟨1, 0, 0, 10, 0, "join"⟩, by decide, by decide, by decide⟩⟩
  have hroot : joinInJoin.Untimed ⟨1, 0, 0, 10, 0, "join"⟩ :=
    ⟨⟨by decide, by decide⟩, .inl (by decide)⟩
  refine .cons ⟨rfl, rfl, ?_, ?_, .inl ⟨rfl, rfl⟩⟩ <| .cons ⟨rfl, rfl, ?_, ?_, .inl ⟨rfl, rfl⟩⟩ <|
    .cons ⟨rfl, rfl, ?_, ?_, .inr ⟨hinner, by decide⟩⟩ <|
    .cons ⟨rfl, rfl, ?_, ?_, .inl ⟨rfl, rfl⟩⟩ <| .cons ⟨rfl, rfl, ?_, ?_, .inl ⟨rfl, rfl⟩⟩ <|
    .cons ⟨rfl, rfl, ?_, ?_, .inr ⟨hroot, by decide⟩⟩ .nil
  all_goals decide

theorem ofTrace_joinInJoinRemarked :
    List.Forall₂ (ShowsAs joinInJoin) joinInJoin joinInJoinRemarked ∧
      ∃ layout, ofTrace joinInJoin = .ok layout ∧ ofTrace joinInJoinRemarked = .ok layout := by
  have hsome : (ofTrace joinInJoin).toOption.isSome = true := by decide +kernel
  cases h : ofTrace joinInJoin with
  | error failure => rw [h] at hsome; cases hsome
  | ok layout =>
    exact ⟨showsAs_joinInJoinRemarked, layout, rfl,
      ofTrace_of_showsAs h showsAs_joinInJoinRemarked⟩

end Layout

end SpanChart
