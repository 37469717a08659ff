/-
  ACCEPTANCE — which traces pass the checks.

  A trace passes if its spans are the nodes of one tree, that is not too deep, and none of them ends
  before it starts.  `Rooted` says so of the trace itself: parents are followed upwards, one span at
  a time (`Climbs`).  The checks do none of this.  They group the spans under their parents, count
  the lines of descent from the root, and compare the count with the number of spans, both as
  machine words; that there are no circles is never looked at.  `exists_check_iff` says that the two
  are the same.  What carries the proof:

  1. `climbs_iff` — a span climbs to the root in `k + 1` spans exactly if it is in the root's
     generation `k`.  So the depth limit is exact: lines of at most `nestingLimit` spans are all the
     spans with a climb of at most so many.

  2. `length_descent_eq_iff` — spans have one parent each, so no span is met twice below the root
     (`SingleParent.nodup_descent`).  The lines are then as many as the spans exactly if every
     span is met: what goes round in a circle, or hangs on one, is missing from the count.

  3. `length_lt_size` — there are not enough ids for more spans than a machine word counts, so
     comparing words is comparing numbers.
-/
import Mathlib.Data.FinEnum
import SpanChart.Layout
import SpanChart.Proofs.Descent
import SpanChart.Proofs.Registration

namespace SpanChart

variable {α : Type}

/-! ## Trees of spans -/

/-- Following parents from a span reaches a root, and `n` spans are visited on the way: the span
    itself, the root, and what is in between. -/
inductive Climbs (trace : Trace α) : Nat → Span α → Prop
  | root {s : Span α} (hs : s ∈ trace) (hroot : s.parent = noParent) : Climbs trace 1 s
  | up {n : Nat} {s t : Span α} (hs : s ∈ trace) (hparent : s.parent ≠ noParent)
      (ht : t.id = s.parent) (climb : Climbs trace n t) : Climbs trace (n + 1) s

theorem Climbs.mem {trace : Trace α} {n : Nat} {s : Span α} (h : Climbs trace n s) : s ∈ trace := by
  cases h with
  | root hs _ => exact hs
  | up hs _ _ _ => exact hs

/-- Parents are one way up: where ids do not repeat, all climbs of a span have one length. -/
theorem Climbs.length_unique {trace : Trace α} (distinct : (trace.map Span.id).Nodup) {m n : Nat}
    {s : Span α} (hm : Climbs trace m s) (hn : Climbs trace n s) : m = n := by
  induction hm generalizing n with
  | root _ hroot =>
    cases hn with
    | root => rfl
    | up _ hparent => exact absurd hroot hparent
  | up _ hparent ht climb ih =>
    cases hn with
    | root _ hroot => exact absurd hroot hparent
    | up _ _ hu climb' =>
      obtain rfl := eq_of_id_eq distinct climb.mem climb'.mem (ht.trans hu.symm)
      rw [ih climb']

/-- The spans of a trace are a tree, nested no deeper than allowed. -/
structure Rooted (trace : Trace α) : Prop where
  named : ∀ s ∈ trace, s.id ≠ noParent
  distinct : (trace.map Span.id).Nodup
  oneRoot : trace.countP Span.isRoot = 1
  parents : ∀ s ∈ trace, s.parent ≠ noParent → ∃ t ∈ trace, t.id = s.parent
  climbs : ∀ s ∈ trace, ∃ n ≤ nestingLimit, Climbs trace n s

/-- A trace that can be charted: a tree of spans, each of which ends no earlier than it starts. -/
structure WellFormed [Scalar α] (trace : Trace α) : Prop extends Rooted trace where
  ordered : ∀ s ∈ trace, s.start ≤ s.finish

theorem isRoot_iff {s : Span α} : s.isRoot = true ↔ s.parent = noParent := beq_iff_eq

/-- There is one root exactly if the list of roots says which. -/
theorem countP_isRoot_eq_one_iff {trace : Trace α} :
    trace.countP Span.isRoot = 1 ↔ ∃ r, trace.filter Span.isRoot = [r] := by
  rw [List.countP_eq_length_filter, List.length_eq_one_iff]

/-- The only root there is. -/
theorem mem_of_filter_eq {trace : Trace α} {r : Span α} (h : trace.filter Span.isRoot = [r]) :
    r ∈ trace ∧ r.parent = noParent := by
  have hr : r ∈ trace.filter Span.isRoot := by rw [h]; exact List.mem_singleton_self r
  exact ⟨(List.mem_filter.1 hr).1, isRoot_iff.1 (List.mem_filter.1 hr).2⟩

/-- Ids are machine words, and one of them is reserved. -/
theorem length_lt_size {trace : Trace α} (named : ∀ s ∈ trace, s.id ≠ noParent)
    (distinct : (trace.map Span.id).Nodup) : trace.length < UInt64.size := by
  have hnodup : (noParent :: trace.map Span.id).Nodup := by
    refine List.nodup_cons.2 ⟨fun h => ?_, distinct⟩
    obtain ⟨s, hs, hid⟩ := List.mem_map.1 h
    exact named s hs hid
  have hcard := hnodup.length_le_card
  rw [← FinEnum.card_eq_fintypeCard, List.length_cons, List.length_map] at hcard
  exact hcard

/-! ## The lineage of a trace -/

section Lineage

variable {trace : Trace α}

theorem mem_of_ofTrace {parent id : SpanId} :
    id ∈ (Children.ofTrace trace).of parent ↔
      ∃ s ∈ trace, s.parent ≠ noParent ∧ s.parent = parent ∧ s.id = id := by
  rw [Children.of_ofTrace, List.mem_map]
  simp only [List.mem_filter, Bool.and_eq_true, Bool.not_eq_true', beq_iff_eq, and_assoc]
  simp only [← Bool.not_eq_true, isRoot_iff, ne_eq]

/-- In a trace without repeated ids every span has one parent. -/
theorem singleParent_ofTrace (distinct : (trace.map Span.id).Nodup) :
    (Children.ofTrace trace).SingleParent where
  nodup p := by
    rw [Children.of_ofTrace]
    exact distinct.sublist ((List.filter_sublist).map _)
  unique {c p q} hp hq := by
    obtain ⟨s, hs, _, rfl, rfl⟩ := mem_of_ofTrace.1 hp
    obtain ⟨t, ht, _, rfl, hid⟩ := mem_of_ofTrace.1 hq
    rw [eq_of_id_eq distinct hs ht hid.symm]

/-- A root is nobody's child. -/
theorem root_notMem_of (distinct : (trace.map Span.id).Nodup) {r : Span α} (hr : r ∈ trace)
    (hroot : r.parent = noParent) (p : SpanId) : r.id ∉ (Children.ofTrace trace).of p := by
  intro h
  obtain ⟨s, hs, hparent, _, hid⟩ := mem_of_ofTrace.1 h
  obtain rfl := eq_of_id_eq distinct hs hr hid
  exact hparent hroot

/-- Whatever descends from a span of the trace is a span of the trace. -/
theorem exists_mem_of_mem_generation {r : Span α} (hr : r ∈ trace) {k : Nat} {id : SpanId}
    (h : id ∈ (Children.ofTrace trace).generation k r.id) : ∃ s ∈ trace, s.id = id := by
  cases k with
  | zero => exact ⟨r, hr, (Children.mem_generation_zero.1 h).symm⟩
  | succ k =>
    obtain ⟨p, _, hid⟩ := Children.mem_generation_succ_last.1 h
    obtain ⟨s, hs, _, _, hs'⟩ := mem_of_ofTrace.1 hid
    exact ⟨s, hs, hs'⟩

/-- **Climbing and descending.**  A span climbs to the root in `k + 1` spans exactly if it is in the
    root's generation `k`. -/
theorem climbs_iff (distinct : (trace.map Span.id).Nodup) {r : Span α}
    (hroots : trace.filter Span.isRoot = [r]) {k : Nat} {s : Span α} (hs : s ∈ trace) :
    Climbs trace (k + 1) s ↔ s.id ∈ (Children.ofTrace trace).generation k r.id := by
  have hroot : ∀ t, t ∈ trace ∧ t.parent = noParent ↔ t = r := by
    intro t
    rw [← isRoot_iff, ← List.mem_filter, hroots, List.mem_singleton]
  constructor
  · intro h
    -- `k + 1` is no index to do induction on, so this is said of any number of spans
    suffices ∀ n t, Climbs trace n t →
        ∃ k, n = k + 1 ∧ t.id ∈ (Children.ofTrace trace).generation k r.id by
      obtain ⟨l, hl, hmem⟩ := this _ _ h
      obtain rfl : k = l := by omega
      exact hmem
    intro n t h
    induction h with
    | @root t ht hparent =>
      rw [(hroot t).1 ⟨ht, hparent⟩]
      exact ⟨0, rfl, Children.mem_generation_zero.2 rfl⟩
    | @up n t u ht hparent hu _ ih =>
      obtain ⟨l, rfl, hmem⟩ := ih
      refine ⟨l + 1, rfl, Children.mem_generation_succ_last.2 ⟨u.id, hmem, ?_⟩⟩
      exact mem_of_ofTrace.2 ⟨t, ht, hparent, hu.symm, rfl⟩
  · intro h
    obtain ⟨hr, hrparent⟩ := (hroot r).2 rfl
    induction k generalizing s with
    | zero =>
      obtain rfl := eq_of_id_eq distinct hs hr (Children.mem_generation_zero.1 h)
      exact .root hs hrparent
    | succ k ih =>
      -- the lineage has a child and its parent by their ids, of which the trace has one span each
      obtain ⟨p, hp, hsp⟩ := Children.mem_generation_succ_last.1 h
      obtain ⟨s', hs', hparent, rfl, hid⟩ := mem_of_ofTrace.1 hsp
      obtain rfl := eq_of_id_eq distinct hs' hs hid
      obtain ⟨t, ht, htid⟩ := exists_mem_of_mem_generation hr hp
      exact .up hs hparent htid (ih ht (htid ▸ hp))

/-- The descent from the root takes up the spans with a short enough climb. -/
theorem mem_descent_iff_climbs (distinct : (trace.map Span.id).Nodup) {r : Span α}
    (hroots : trace.filter Span.isRoot = [r]) {levels : Nat} {s : Span α} (hs : s ∈ trace) :
    s.id ∈ (Children.ofTrace trace).descent levels r.id ↔ ∃ n ≤ levels, Climbs trace n s := by
  rw [Children.mem_descent]
  constructor
  · rintro ⟨k, hk, h⟩
    exact ⟨k + 1, hk, (climbs_iff distinct hroots hs).2 h⟩
  · rintro ⟨n, hn, h⟩
    cases n with
    | zero => cases h
    | succ k => exact ⟨k, hn, (climbs_iff distinct hroots hs).1 h⟩

/-- The descent from the root has no repetitions, and no ids that are not in the trace. -/
theorem subperm_descent (distinct : (trace.map Span.id).Nodup) {r : Span α}
    (hroots : trace.filter Span.isRoot = [r]) (levels : Nat) :
    ((Children.ofTrace trace).descent levels r.id).Subperm (trace.map Span.id) := by
  obtain ⟨hr, hroot⟩ := mem_of_filter_eq hroots
  refine List.subperm_of_subset ?_ ?_
  · exact (singleParent_ofTrace distinct).nodup_descent (root_notMem_of distinct hr hroot) levels
      (Children.mem_generation_zero.2 rfl)
  · intro id hid
    obtain ⟨k, _, hk⟩ := Children.mem_descent.1 hid
    obtain ⟨s, hs, rfl⟩ := exists_mem_of_mem_generation hr hk
    exact List.mem_map_of_mem hs

/-- **Counting is enough.**  As many spans are met below the root as there are spans exactly if
    every span climbs to the root. -/
theorem length_descent_eq_iff (distinct : (trace.map Span.id).Nodup) {r : Span α}
    (hroots : trace.filter Span.isRoot = [r]) {levels : Nat} :
    ((Children.ofTrace trace).descent levels r.id).length = trace.length ↔
      ∀ s ∈ trace, ∃ n ≤ levels, Climbs trace n s := by
  have hsub := subperm_descent distinct hroots levels
  have hlength : (trace.map Span.id).length = trace.length := List.length_map _
  rw [← hlength]
  constructor
  · intro h s hs
    have hperm := hsub.perm_of_length_le h.ge
    rw [← mem_descent_iff_climbs distinct hroots hs, hperm.mem_iff]
    exact List.mem_map_of_mem hs
  · intro h
    refine le_antisymm hsub.length_le (List.subperm_of_subset distinct ?_).length_le
    intro id hid
    obtain ⟨s, hs, rfl⟩ := List.mem_map.1 hid
    exact (mem_descent_iff_climbs distinct hroots hs).2 (h s hs)

end Lineage

/-! ## Passing the checks -/

/-- Nothing is wrong below the root if no line is too long and the words for the counts agree. -/
theorem Children.survey_eq_none_iff {children : Children} {root : SpanId} {count : UInt64} :
    children.survey (α := α) root count = none ↔
      children.generation nestingLimit root = [] ∧
        UInt64.ofNat (children.descent nestingLimit root).length = count := by
  unfold survey
  have hlines : ∀ n, children.lines nestingLimit root = .ok n ↔ _ := fun n => lines_eq_ok_iff
  cases h : children.lines nestingLimit root with
  | error id =>
    rw [h] at hlines
    -- were there an end to all lines, they would have been counted
    have hend : children.generation nestingLimit root ≠ [] := fun hend => by
      simpa using (hlines _).2 ⟨hend, rfl⟩
    simp [hend]
  | ok n =>
    obtain ⟨hend, rfl⟩ := (hlines n).1 h
    simp [hend]

namespace Layout

variable [Scalar α] {trace : Trace α}

/-- What is known of a trace that passed: the register holds its spans, there is one root, and the
    descent from there ends and takes up every span once. -/
structure Checked.Describes (checked : Checked α) (trace : Trace α) : Prop where
  registrable : Registrable trace
  holds : ∀ id s, checked.register[id]? = some s ↔ s ∈ trace ∧ s.id = id
  children_eq : checked.children = Children.ofTrace trace
  root : ∃ r, trace.filter Span.isRoot = [r] ∧ r.id = checked.root
  ends : checked.children.generation nestingLimit checked.root = []
  climbs : ∀ s ∈ trace, ∃ n ≤ nestingLimit, Climbs trace n s

/-- Of two steps the second is only taken if the first succeeds. -/
theorem bind_eq_ok_iff {ε β γ : Type} {x : Except ε β} {f : β → Except ε γ} {c : γ} :
    x >>= f = .ok c ↔ ∃ b, x = .ok b ∧ f b = .ok c := by
  cases x with
  | error e => simp [bind, Except.bind]
  | ok b => simp [bind, Except.bind]

/-- Of several steps each has to succeed. -/
theorem mapM_eq_ok_iff {ε β γ : Type} {f : β → Except ε γ} {bs : List β} {cs : List γ} :
    bs.mapM f = .ok cs ↔ List.Forall₂ (fun b c => f b = .ok c) bs cs := by
  induction bs generalizing cs with
  | nil =>
    rw [List.mapM_nil, List.forall₂_nil_left_iff]
    exact ⟨fun h => (Except.ok.inj h).symm, fun h => h ▸ rfl⟩
  | cons b bs ih =>
    rw [List.mapM_cons]
    constructor
    · intro h
      obtain ⟨c, hc, h⟩ := bind_eq_ok_iff.1 h
      obtain ⟨cs, hcs, h⟩ := bind_eq_ok_iff.1 h
      cases h
      exact .cons hc (ih.1 hcs)
    · intro h
      cases h with
      | cons hc hcs =>
        rw [hc, ih.2 hcs]
        rfl

/-- The checks in one: what is registered, which root is found, and what the survey says. -/
theorem check_eq_ok_iff {checked : Checked α} :
    check trace = .ok checked ↔
      Register.ofTrace? trace = .ok checked.register ∧
        (trace.filter Span.isRoot).map Span.id = [checked.root] ∧
        checked.children = Children.ofTrace trace ∧
        checked.children.survey (α := α) checked.root (UInt64.ofNat trace.length) = none := by
  unfold check
  rw [bind_eq_ok_iff]
  constructor
  · rintro ⟨register, hregister, h⟩
    obtain ⟨root, hroot, h⟩ := bind_eq_ok_iff.1 h
    split at h
    · cases h
    · next hsurvey =>
      cases h
      exact ⟨hregister, Lineage.root?_eq_ok_iff.1 hroot, rfl, hsurvey⟩
  · rintro ⟨hregister, hroot, hchildren, hsurvey⟩
    refine ⟨_, hregister, bind_eq_ok_iff.2 ⟨_, Lineage.root?_eq_ok_iff.2 hroot, ?_⟩⟩
    simp only [Lineage.ofTrace, ← hchildren, hsurvey]
    rfl

/-- **A trace that passes the checks** is a tree of spans, and the checks leave its description. -/
theorem describes_of_check {checked : Checked α} (h : check trace = .ok checked) :
    checked.Describes trace := by
  obtain ⟨hregister, hroot, hchildren, hsurvey⟩ := check_eq_ok_iff.1 h
  obtain ⟨registrable, holds⟩ := Register.ofTrace?_eq_ok hregister
  obtain ⟨r, hroots, hid⟩ := List.map_eq_singleton_iff.1 hroot
  obtain ⟨hends, hcount⟩ := Children.survey_eq_none_iff.1 hsurvey
  refine ⟨registrable, holds, hchildren, ⟨r, hroots, hid⟩, hends, ?_⟩
  have distinct := registrable.distinct
  have hsub := subperm_descent distinct hroots nestingLimit
  rw [hchildren, ← hid] at hcount
  rw [← length_descent_eq_iff distinct hroots]
  -- neither count is too large for a word
  have hsize := length_lt_size registrable.named distinct
  have hle := hsub.length_le
  rw [List.length_map] at hle
  have hcount' := congrArg UInt64.toNat hcount
  rwa [UInt64.toNat_ofNat_of_lt' (lt_of_le_of_lt hle hsize), UInt64.toNat_ofNat_of_lt' hsize]
    at hcount'

/-- **Every tree of spans passes**, if only no span ends before it starts. -/
theorem exists_check (h : Rooted trace) (forwards : ∀ s ∈ trace, ¬s.finish < s.start) :
    ∃ checked, check trace = .ok checked := by
  obtain ⟨r, hroots⟩ := countP_isRoot_eq_one_iff.1 h.oneRoot
  have registrable : Registrable trace := by
    refine ⟨h.named, forwards, h.distinct, fun s hs hparent => ?_⟩
    refine ⟨fun hown => ?_, h.parents s hs hparent⟩
    -- with itself for a parent a span would have a climb one longer than its climb
    obtain ⟨n, _, climb⟩ := h.climbs s hs
    have := climb.length_unique h.distinct (.up hs hparent hown.symm climb)
    omega
  obtain ⟨register, hregister⟩ := Register.exists_ofTrace? registrable
  refine ⟨⟨register, Children.ofTrace trace, r.id⟩, check_eq_ok_iff.2 ⟨hregister, ?_, rfl, ?_⟩⟩
  · show (trace.filter Span.isRoot).map Span.id = [r.id]
    rw [hroots, List.map_singleton]
  · refine Children.survey_eq_none_iff.2 ⟨List.eq_nil_iff_forall_not_mem.2 fun id hid => ?_, ?_⟩
    · -- a span beyond the limit has a climb within it
      obtain ⟨s, hs, rfl⟩ := exists_mem_of_mem_generation (mem_of_filter_eq hroots).1 hid
      obtain ⟨n, hn, climb⟩ := h.climbs s hs
      have := climb.length_unique h.distinct ((climbs_iff h.distinct hroots hs).2 hid)
      omega
    · rw [(length_descent_eq_iff h.distinct hroots).2 h.climbs]

/-- **The checks accept exactly the trees of spans** of which none ends before it starts. -/
theorem exists_check_iff :
    (∃ checked, check trace = .ok checked) ↔ Rooted trace ∧ ∀ s ∈ trace, ¬s.finish < s.start := by
  constructor
  · rintro ⟨checked, h⟩
    have hd := describes_of_check h
    have hreg := hd.registrable
    obtain ⟨r, hroots, _⟩ := hd.root
    exact ⟨⟨hreg.named, hreg.distinct, countP_isRoot_eq_one_iff.2 ⟨r, hroots⟩,
      fun s hs hparent => (hreg.parents s hs hparent).2, hd.climbs⟩, hreg.forwards⟩
  · rintro ⟨h, forwards⟩
    exact exists_check h forwards

end Layout

end SpanChart
