/-
  COVERING — the links of a chart are the Hasse diagram of its order.

  Of all pairs of tasks of which the first ran before the second, a chart draws only those with
  nothing in between.  The file proves this in three steps, about one leaf `t` and its sources:

  1. `mem_sources_iff_meetAt` — a leaf is a source of `t` exactly if the two *meet*: somewhere in
     the chart two consecutive parts of a sequence are left through the one and entered through the
     other.  Two leaves meet at one place at most (`meetAt_unique`), so nothing is drawn twice.

  2. `mem_sources_iff_covered` — they meet exactly if `t` covers the source.  From left to right, a
     leaf in between would lie in one of the two parts, and precede an entry of the one or follow an
     exit of the other.  From right to left, a leaf in between exists whenever the two do not meet:
     in a part that is skipped, or one that spoils an exit or an entry.

  3. `linkPairs` lists the pairs, one for each link and in the order of the links.

  In a finite order that is all there is to know: the order is reached along the links, and none of
  them is implied by others.
-/
import SpanChart.Proofs.Sources

namespace SpanChart.Chart

variable {α : Type} [Scalar α]

/-! ## Where two leaves meet -/

/-- The leaves `s` and `t` meet in the sequence at the end of the path `above`: its part at `i` is
    left through `s`, and the part after that is entered through `t`. -/
def MeetAt (c : Chart α) (above : List Nat) (i : Nat) (s t : Leaf α) : Prop :=
  ∃ b d e, c.at? above = some b ∧ b.flow? = some .sequential ∧
    b.parts[i]? = some d ∧ b.parts[i + 1]? = some e ∧
    (∃ x ∈ d.exitLeaves, s = ⟨above ++ i :: x.path, x.task⟩) ∧
    ∃ y ∈ e.entryLeaves, t = ⟨above ++ (i + 1) :: y.path, y.task⟩

/-- Leaves that meet at the top of a chart. -/
theorem meetAt_nil {c : Chart α} {i : Nat} {s t : Leaf α} :
    c.MeetAt [] i s t ↔
      ∃ e, c.parts[i + 1]? = some e ∧ s ∈ c.exitsBefore (i + 1) ∧
        ∃ y ∈ e.entryLeaves, y.under (i + 1) = t := by
  constructor
  · rintro ⟨b, d, e, hb, hflow, hd, he, ⟨x, hx, rfl⟩, y, hy, rfl⟩
    obtain rfl := Option.some.inj hb
    exact ⟨e, he, mem_exitsBefore.2 ⟨i, d, rfl, hflow, hd, x, hx, rfl⟩, y, hy, rfl⟩
  · rintro ⟨e, he, hs, y, hy, rfl⟩
    obtain ⟨k, d, hk, hflow, hd, x, hx, rfl⟩ := mem_exitsBefore.1 hs
    obtain rfl : i = k := by omega
    exact ⟨c, d, e, rfl, hflow, hd, he, ⟨x, hx, rfl⟩, y, hy, rfl⟩

/-- Leaves that meet further down meet in a part. -/
theorem meetAt_cons {c d : Chart α} {j : Nat} (hd : c.parts[j]? = some d) {above : List Nat}
    {i : Nat} {s t : Leaf α} :
    c.MeetAt (j :: above) i s t ↔
      ∃ s' t', s'.under j = s ∧ t'.under j = t ∧ d.MeetAt above i s' t' := by
  constructor
  · rintro ⟨b, d', e, hb, hflow, hd', he, ⟨x, hx, rfl⟩, y, hy, rfl⟩
    rw [at?_cons_of_part hd] at hb
    exact ⟨⟨above ++ i :: x.path, x.task⟩, ⟨above ++ (i + 1) :: y.path, y.task⟩, rfl, rfl,
      b, d', e, hb, hflow, hd', he, ⟨x, hx, rfl⟩, y, hy, rfl⟩
  · rintro ⟨s', t', rfl, rfl, b, d', e, hb, hflow, hd', he, ⟨x, hx, rfl⟩, y, hy, rfl⟩
    exact ⟨b, d', e, (at?_cons_of_part hd above).trans hb, hflow, hd', he, ⟨x, hx, rfl⟩, y, hy, rfl⟩

/-- Two paths that go on at `i` and `i + 1` tell where they part. -/
theorem parting_unique {above above' p p' q q' : List Nat} {i i' : Nat}
    (hp : above ++ i :: p = above' ++ i' :: p')
    (hq : above ++ (i + 1) :: q = above' ++ (i' + 1) :: q') : above = above' ∧ i = i' := by
  induction above generalizing above' with
  | nil =>
    cases above' with
    | nil => exact ⟨rfl, (List.cons.inj hp).1⟩
    | cons k above' =>
      have h1 := (List.cons.inj hp).1
      have h2 := (List.cons.inj hq).1
      omega
  | cons j above ih =>
    cases above' with
    | nil =>
      have h1 := (List.cons.inj hp).1
      have h2 := (List.cons.inj hq).1
      omega
    | cons k above' =>
      obtain ⟨rfl, htail⟩ := List.cons.inj hp
      obtain ⟨rfl, rfl⟩ := ih htail (List.cons.inj hq).2
      exact ⟨rfl, rfl⟩

/-- Two leaves meet at one place at most. -/
theorem meetAt_unique {c : Chart α} {above above' : List Nat} {i i' : Nat} {s t : Leaf α}
    (h : c.MeetAt above i s t) (h' : c.MeetAt above' i' s t) : above = above' ∧ i = i' := by
  obtain ⟨_, _, _, -, -, -, -, ⟨x, -, rfl⟩, y, -, rfl⟩ := h
  obtain ⟨_, _, _, -, -, -, -, ⟨x', -, hs⟩, y', -, ht⟩ := h'
  exact parting_unique (Leaf.mk.inj hs).1 (Leaf.mk.inj ht).1

/-- The sources of a leaf are the leaves that it meets. -/
theorem mem_sources_iff_meetAt {c : Chart α} {s t : Leaf α} (ht : t ∈ c.leaves) :
    s ∈ c.sources t.path ↔ ∃ above i, c.MeetAt above i s t := by
  induction c using inductParts generalizing s t with
  | ofTask u =>
    obtain rfl := List.mem_singleton.1 ht
    constructor
    · exact fun h => absurd h List.not_mem_nil
    · rintro ⟨above, i, _, _, _, -, -, -, -, -, y, -, h⟩
      exact absurd (Leaf.mk.inj h).1.symm (by simp)
  | ofGroup flow corner first rest ih =>
    obtain ⟨j, d, hd, t, ht', rfl⟩ := mem_leaves_group.1 ht
    have hpart : (group flow corner first rest).parts[j]? = some d := hd
    have ih := @ih d (List.mem_of_getElem? hd)
    rw [Leaf.under, mem_sources_cons hpart]
    constructor
    · rintro (⟨hentered, hs⟩ | ⟨-, x, hx, rfl⟩)
      · obtain ⟨i, -, rfl, -⟩ := mem_exitsBefore.1 hs
        exact ⟨[], i, meetAt_nil.2 ⟨d, hpart, hs, t, List.mem_filter.2 ⟨ht', hentered⟩, rfl⟩⟩
      · obtain ⟨above, i, hmeet⟩ := (ih ht').1 hx
        exact ⟨j :: above, i, (meetAt_cons hpart).2 ⟨x, t, rfl, rfl, hmeet⟩⟩
    · rintro ⟨above, i, hmeet⟩
      cases above with
      | nil =>
        obtain ⟨e, he, hs, y, hy, hyt⟩ := meetAt_nil.1 hmeet
        obtain rfl : i + 1 = j := (List.cons.inj (Leaf.mk.inj hyt).1).1
        obtain rfl := Leaf.under_injective (i + 1) hyt
        obtain rfl : d = e := Option.some.inj (hpart.symm.trans he)
        exact Or.inl ⟨(List.mem_filter.1 hy).2, hs⟩
      | cons k above =>
        have hk : j = k := by
          obtain ⟨_, _, _, -, -, -, -, -, y, -, h⟩ := hmeet
          exact (List.cons.inj (Leaf.mk.inj h).1).1
        subst hk
        obtain ⟨s, t', rfl, htt, hinner⟩ := (meetAt_cons hpart).1 hmeet
        obtain rfl := Leaf.under_injective j htt
        have hs := (ih ht').2 ⟨above, i, hinner⟩
        -- a leaf with sources inside the part is none of its entries
        have hentered : d.enteredAt t'.path = false := by
          by_contra h
          rw [sources_of_enteredAt (Bool.eq_true_of_not_eq_false h)] at hs
          exact List.not_mem_nil hs
        exact Or.inr ⟨hentered, s, hs, rfl⟩

/-! ## What a leaf covers -/

/-- Nothing lies between two leaves that meet at the top. -/
theorem not_between_of_exitsBefore {c d : Chart α} {j : Nat} (hd : c.parts[j]? = some d)
    {s t m : Leaf α} (hs : s ∈ c.exitsBefore j) (ht : t ∈ d.entryLeaves) (hm : m ∈ c.leaves)
    (hsm : c.Precedes s.path m.path) : ¬c.Precedes m.path (j :: t.path) := by
  intro hmt
  -- `m` would be in the earlier part or after it, and before the later part or in it
  obtain ⟨i, e, rfl, hflow, he, x, hx, rfl⟩ := mem_exitsBefore.1 hs
  obtain ⟨k, p, _, _, hk, -⟩ := hmt.exists_cons
  obtain ⟨mp, mt⟩ := m
  obtain rfl : mp = k :: p := hk
  rcases parted_cons.1 hsm with ⟨-, hik⟩ | ⟨rfl, e', he', hxm⟩
  · rcases parted_cons.1 hmt with ⟨-, hki⟩ | ⟨rfl, d', hd', hmt⟩
    · omega
    · -- in the later part, where it would precede an entry
      obtain rfl : d = d' := Option.some.inj (hd.symm.trans hd')
      have hmd : (⟨p, mt⟩ : Leaf α) ∈ d.leaves := (under_mem_leaves hd).1 hm
      obtain ⟨ht, hentered⟩ := List.mem_filter.1 ht
      exact (enteredAt_iff ht).1 hentered _ hmd hmt
  · -- in the earlier part, where it would follow an exit
    obtain rfl : e = e' := Option.some.inj (he.symm.trans he')
    have hme : (⟨p, mt⟩ : Leaf α) ∈ e.leaves := (under_mem_leaves he).1 hm
    obtain ⟨hx, hleft⟩ := List.mem_filter.1 hx
    exact (leftAt_iff hx).1 hleft _ hme hxm

/-- Leaves of different parts with nothing in between meet at the top. -/
theorem mem_exitsBefore_of_covered {c d e : Chart α} {i j : Nat} (hd : c.parts[i]? = some d)
    (he : c.parts[j]? = some e) {s t : Leaf α} (hs : s ∈ d.leaves) (ht : t ∈ e.leaves)
    (hflow : c.flow? = some .sequential) (hij : i < j)
    (hbetween : ∀ m ∈ c.leaves,
      ¬(c.Precedes (i :: s.path) m.path ∧ c.Precedes m.path (j :: t.path))) :
    e.enteredAt t.path = true ∧ s.under i ∈ c.exitsBefore j := by
  have hlen := (List.getElem?_eq_some_iff.1 he).1
  -- otherwise a leaf of the part after `i` would be in between
  have hji : j = i + 1 := by
    by_contra hne
    have hf : c.parts[i + 1]? = some c.parts[i + 1] := List.getElem?_eq_getElem (by omega)
    obtain ⟨m, hm⟩ := List.exists_mem_of_ne_nil _ c.parts[i + 1].leaves_ne_nil
    exact hbetween _ ((under_mem_leaves hf).2 hm)
      ⟨parted_cons.2 (Or.inl ⟨hflow, by omega⟩), parted_cons.2 (Or.inl ⟨hflow, by omega⟩)⟩
  subst hji
  have hleft : d.leftAt s.path = true := by
    rw [leftAt_iff hs]
    intro m hm hsm
    exact hbetween _ ((under_mem_leaves hd).2 hm)
      ⟨(parted_cons_self hd).2 hsm, parted_cons.2 (Or.inl ⟨hflow, by omega⟩)⟩
  have hentered : e.enteredAt t.path = true := by
    rw [enteredAt_iff ht]
    intro m hm hmt
    exact hbetween _ ((under_mem_leaves he).2 hm)
      ⟨parted_cons.2 (Or.inl ⟨hflow, by omega⟩), (parted_cons_self he).2 hmt⟩
  exact ⟨hentered,
    mem_exitsBefore.2 ⟨i, d, rfl, hflow, hd, s, List.mem_filter.2 ⟨hs, hleft⟩, rfl⟩⟩

/-- **The sources of a leaf are the leaves that it covers.** -/
theorem mem_sources_iff_covered {c : Chart α} {s t : Leaf α} (hs : s ∈ c.leaves)
    (ht : t ∈ c.leaves) :
    s ∈ c.sources t.path ↔
      c.Precedes s.path t.path ∧
        ∀ m ∈ c.leaves, ¬(c.Precedes s.path m.path ∧ c.Precedes m.path t.path) := by
  induction c using inductParts generalizing s t with
  | ofTask u =>
    obtain rfl := List.mem_singleton.1 ht
    exact ⟨fun h => absurd h List.not_mem_nil, fun h => absurd h.1 not_parted_nil_right⟩
  | ofGroup flow corner first rest ih =>
    obtain ⟨i, d, hd, s, hs', rfl⟩ := mem_leaves_group.1 hs
    obtain ⟨j, e, he, t, ht', rfl⟩ := mem_leaves_group.1 ht
    have hd : (group flow corner first rest).parts[i]? = some d := hd
    have he : (group flow corner first rest).parts[j]? = some e := he
    have ih := @ih e (List.mem_of_getElem? he)
    show s.under i ∈ sources (j :: t.path) _ ↔ Precedes _ (i :: s.path) (j :: t.path) ∧
      ∀ m ∈ _, ¬(Precedes _ (i :: s.path) (Leaf.path m) ∧ Precedes _ (Leaf.path m) (j :: t.path))
    rw [mem_sources_cons he]
    constructor
    · rintro (⟨hentered, hs⟩ | ⟨-, x, hx, hxs⟩)
      · have htent : t ∈ e.entryLeaves := List.mem_filter.2 ⟨ht', hentered⟩
        refine ⟨?_, fun m hm hsmt => not_between_of_exitsBefore he hs htent hm hsmt.1 hsmt.2⟩
        obtain ⟨k, _, rfl, hflow, -, x, -, hx⟩ := mem_exitsBefore.1 hs
        obtain rfl : k = i := (List.cons.inj (Leaf.mk.inj hx).1).1
        exact parted_cons.2 (Or.inl ⟨hflow, Nat.lt_succ_self k⟩)
      · obtain rfl : j = i := (List.cons.inj (Leaf.mk.inj hxs).1).1
        obtain rfl := Leaf.under_injective j hxs
        obtain ⟨hst, hbetween⟩ := (ih (sources_subset hx) ht').1 hx
        refine ⟨(parted_cons_self he).2 hst, ?_⟩
        rintro m hm ⟨hsm, hmt⟩
        -- a leaf between two of one part is in that part
        obtain ⟨k, f, hf, m, hm, rfl⟩ := mem_leaves_group.1 hm
        have hkj : k = j := by
          rcases parted_cons.1 hsm with ⟨-, hjk⟩ | ⟨hjk, -⟩
          · rcases parted_cons.1 hmt with ⟨-, hkj⟩ | ⟨hkj, -⟩ <;> omega
          · exact hjk.symm
        subst hkj
        obtain rfl : e = f := Option.some.inj (he.symm.trans hf)
        exact hbetween m hm ⟨(parted_cons_self he).1 hsm, (parted_cons_self he).1 hmt⟩
    · rintro ⟨hst, hbetween⟩
      rcases parted_cons.1 hst with ⟨hflow, hij⟩ | ⟨rfl, e', he', hst⟩
      · exact Or.inl (mem_exitsBefore_of_covered hd he hs' ht' hflow hij hbetween)
      · obtain rfl : d = e := Option.some.inj (hd.symm.trans he)
        obtain rfl : d = e' := Option.some.inj (hd.symm.trans he')
        have hentered : d.enteredAt t.path = false := by
          by_contra h
          exact (enteredAt_iff ht').1 (Bool.eq_true_of_not_eq_false h) s hs' hst
        refine Or.inr ⟨hentered, s, (ih hs' ht').2 ⟨hst, ?_⟩, rfl⟩
        rintro m hm ⟨hsm, hmt⟩
        exact hbetween _ ((under_mem_leaves hd).2 hm)
          ⟨(parted_cons_self hd).2 hsm, (parted_cons_self hd).2 hmt⟩

/-! ## The pairs that are linked -/

/-- The leaves of a chart in pairs, one for each link, from the source to the target. -/
def linkPairs (c : Chart α) : List (LeafOf c × LeafOf c) :=
  (LeafOf.all c).flatMap fun t =>
    (c.sources t.path).pmap (fun s hs => (⟨s, hs⟩, t)) fun _ => sources_subset

theorem mem_linkPairs {c : Chart α} {s t : LeafOf c} :
    (s, t) ∈ c.linkPairs ↔ s.toLeaf ∈ c.sources t.path := by
  unfold linkPairs
  rw [List.mem_flatMap]
  constructor
  · rintro ⟨u, -, hst⟩
    obtain ⟨x, hx, hxst⟩ := List.mem_pmap.1 hst
    obtain ⟨rfl, rfl⟩ := Prod.mk.inj hxst
    exact hx
  · exact fun hs => ⟨t, LeafOf.mem_all t, List.mem_pmap.2 ⟨s.toLeaf, hs, rfl⟩⟩

/-- No pair of leaves is linked twice. -/
theorem nodup_linkPairs (c : Chart α) : c.linkPairs.Nodup := by
  unfold linkPairs
  rw [List.nodup_flatMap]
  constructor
  · intro t _
    refine (nodup_sources t.path c).pmap fun x _ y _ h => ?_
    exact congrArg LeafOf.toLeaf (Prod.mk.inj h).1
  · refine (LeafOf.nodup_all c).imp fun {t u} htu => ?_
    intro st hst hsu
    obtain ⟨_, _, rfl⟩ := List.mem_pmap.1 hst
    obtain ⟨_, _, h⟩ := List.mem_pmap.1 hsu
    exact htu (Prod.mk.inj h).2.symm

/-- Every link goes from the exit of a source to the entry of its target. -/
theorem innerLinks_eq_map_linkPairs (c : Chart α) :
    c.innerLinks = c.linkPairs.map fun st => ⟨st.1.task.exit, st.2.task.entry⟩ := by
  calc c.innerLinks
      = ((LeafOf.all c).map LeafOf.toLeaf).flatMap fun l =>
          (c.sources l.path).map fun s => ⟨s.task.exit, l.task.entry⟩ := by
        rw [innerLinks_eq, LeafOf.map_toLeaf_all]
    _ = (LeafOf.all c).flatMap fun t =>
          ((c.sources t.path).pmap (fun s hs => ((⟨s, hs⟩, t) : LeafOf c × LeafOf c))
            fun _ => sources_subset).map fun st => ⟨st.1.task.exit, st.2.task.entry⟩ := by
        rw [List.flatMap_map]
        refine List.flatMap_congr fun t _ => ?_
        rw [List.map_pmap]
        exact (List.pmap_eq_map (fun _ => sources_subset)).symm
    _ = c.linkPairs.map fun st => ⟨st.1.task.exit, st.2.task.entry⟩ := by
        rw [linkPairs, List.map_flatMap]

theorem LeafOf.task_mem {c : Chart α} (l : LeafOf c) : l.task ∈ c.tasks := by
  rw [← map_task_leaves]
  exact List.mem_map_of_mem l.mem

/-- A link goes from the exit of one task to the entry of another. -/
theorem exists_tasks_of_mem_innerLinks {c : Chart α} {l : Link α} (hl : l ∈ c.innerLinks) :
    ∃ t ∈ c.tasks, ∃ u ∈ c.tasks, l = ⟨t.exit, u.entry⟩ := by
  rw [innerLinks_eq_map_linkPairs] at hl
  obtain ⟨⟨s, t⟩, -, rfl⟩ := List.mem_map.1 hl
  exact ⟨s.task, s.task_mem, t.task, t.task_mem, rfl⟩

theorem mem_linkPairs_iff_covBy {c : Chart α} {s t : LeafOf c} :
    (s, t) ∈ c.linkPairs ↔ s ⋖ t := by
  rw [mem_linkPairs, mem_sources_iff_covered s.mem t.mem]
  constructor
  · rintro ⟨hst, hbetween⟩
    exact ⟨hst, fun m hsm hmt => hbetween m.toLeaf m.mem ⟨hsm, hmt⟩⟩
  · rintro ⟨hst, hbetween⟩
    exact ⟨hst, fun m hm hsmt => hbetween (c := ⟨m, hm⟩) hsmt.1 hsmt.2⟩

theorem mem_linkPairs_iff_meetAt {c : Chart α} {s t : LeafOf c} :
    (s, t) ∈ c.linkPairs ↔
      ∃! place : List Nat × Nat, c.MeetAt place.1 place.2 s.toLeaf t.toLeaf := by
  rw [mem_linkPairs, mem_sources_iff_meetAt t.mem]
  constructor
  · rintro ⟨above, i, hmeet⟩
    refine ⟨(above, i), hmeet, fun place hplace => ?_⟩
    obtain ⟨habove, hi⟩ := meetAt_unique hplace hmeet
    exact Prod.ext habove hi
  · rintro ⟨place, hmeet, -⟩
    exact ⟨place.1, place.2, hmeet⟩

/-- **The links of a chart are the Hasse diagram of the order in which its tasks ran.**  They are
    drawn for a set of pairs of leaves, once for each pair.  These are the pairs of which the
    second covers the first, and the ones that meet, at one place each, where consecutive parts of
    a sequence do.  Along them a leaf is reached from exactly those that precede it, never from one
    in another part of the same parallel group, and no pair is joined by other pairs as well. -/
theorem innerLinks_hasse (c : Chart α) :
    ∃ pairs : Finset (LeafOf c × LeafOf c),
      (c.innerLinks : Multiset (Link α)) =
        pairs.val.map (fun st => ⟨st.1.task.exit, st.2.task.entry⟩) ∧
      (∀ s t, (s, t) ∈ pairs ↔ s ⋖ t) ∧
      (∀ s t, (s, t) ∈ pairs ↔
        ∃! place : List Nat × Nat, c.MeetAt place.1 place.2 s.toLeaf t.toLeaf) ∧
      (∀ s t, Relation.TransGen (fun a b => (a, b) ∈ pairs) s t ↔
        c.Precedes s.path t.path) ∧
      (∀ s t, c.Parted .parallel s.path t.path →
        ¬Relation.TransGen (fun a b => (a, b) ∈ pairs) s t ∧
        ¬Relation.TransGen (fun a b => (a, b) ∈ pairs) t s) ∧
      (∀ s t, (s, t) ∈ pairs →
        ¬Relation.TransGen (fun a b => (a, b) ∈ pairs ∧ (a, b) ≠ (s, t)) s t) := by
  refine ⟨⟨c.linkPairs, c.nodup_linkPairs⟩, ?_, fun s t => mem_linkPairs_iff_covBy,
    fun s t => mem_linkPairs_iff_meetAt, ?_⟩
  · rw [innerLinks_eq_map_linkPairs]
    rfl
  -- a finite order is generated by its covers
  have hsteps : ∀ s t : LeafOf c,
      Relation.TransGen (fun a b => (a, b) ∈ c.linkPairs) s t ↔ c.Precedes s.path t.path := by
    intro s t
    have hrel : (fun a b => (a, b) ∈ c.linkPairs) = ((· ⋖ ·) : LeafOf c → LeafOf c → Prop) :=
      funext fun a => funext fun b => propext mem_linkPairs_iff_covBy
    rw [hrel, ← LeafOf.lt_iff_steps, LeafOf.lt_iff_precedes]
  refine ⟨hsteps, ?_, ?_⟩
  · intro s t hlanes
    refine ⟨fun hst => ?_, fun hts => hlanes.asymm ((hsteps t s).1 hts)⟩
    exact Flow.noConfusion (parted_flow_unique hlanes ((hsteps s t).1 hst))
  · intro s t hst hother
    have hcov : s ⋖ t := mem_linkPairs_iff_covBy.1 hst
    -- another way from `s` to `t` has a leaf on it, and nothing is between the two
    cases hother with
    | single h => exact h.2 rfl
    | tail hsm hmt =>
      have hsm := Relation.TransGen.mono (fun _ _ h => And.left h) _ _ hsm
      exact hcov.2 ((hsteps _ _).1 hsm) (mem_linkPairs_iff_covBy.1 hmt.1).1

end SpanChart.Chart
