/-
  OUTCOMES — what comes of a trace.

  A trace is rejected, or laid out, or it passes and breaks while it is charted.  Which of the three
  it is can be read off the trace: it passes exactly if it is a tree of spans none of which is
  reversed (`exists_check_iff`), and what passes is laid out exactly if it is `Timely`
  (`exists_ofTrace_iff`, `ofTrace_eq_broken_iff`).

  In binary64 this leaves the NaN as the only way to break anything.  A trace without one is laid
  out if it is well-formed and rejected if it is not; with one, it takes a NaN at one of three
  places to break it, and elsewhere a NaN does no harm.
-/
import SpanChart.Proofs.Acceptance
import SpanChart.Proofs.Charting

namespace SpanChart

open Scalar (IsNumber Ordered)

variable {α : Type} [Scalar α]

/-! ## Traces that pass -/

/-- The times that a chart starts or ends tasks at are numbers: both of every span without children,
    and of every span with children that is no join its own start and their ends. -/
def Timely (trace : Trace α) : Prop :=
  ∀ s ∈ trace,
    ((∀ t ∈ trace, t.parent ≠ s.id) → IsNumber s.start ∧ IsNumber s.finish) ∧
      (s.isJoin = false → ∀ t ∈ trace, t.parent = s.id → IsNumber s.start ∧ IsNumber t.finish)

namespace Layout

variable {trace : Trace α} {checked : Checked α}

namespace Checked.Describes

/-- The children of a span are the spans that give it as their parent. -/
theorem mem_of_iff (h : checked.Describes trace) {s : Span α} (hs : s ∈ trace) {id : SpanId} :
    id ∈ checked.children.of s.id ↔ ∃ t ∈ trace, t.parent = s.id ∧ t.id = id := by
  rw [h.children_eq, mem_of_ofTrace]
  constructor
  · rintro ⟨t, ht, _, hparent, hid⟩
    exact ⟨t, ht, hparent, hid⟩
  · rintro ⟨t, ht, hparent, hid⟩
    exact ⟨t, ht, hparent ▸ h.registrable.named s hs, hparent, hid⟩

theorem of_eq_nil_iff (h : checked.Describes trace) {s : Span α} (hs : s ∈ trace) :
    checked.children.of s.id = [] ↔ ∀ t ∈ trace, t.parent ≠ s.id := by
  rw [List.eq_nil_iff_forall_not_mem]
  constructor
  · exact fun hnone t ht hparent => hnone t.id ((h.mem_of_iff hs).2 ⟨t, ht, hparent, rfl⟩)
  · intro hnone id hid
    obtain ⟨t, ht, hparent, _⟩ := (h.mem_of_iff hs).1 hid
    exact hnone t ht hparent

theorem getElem?_register (h : checked.Describes trace) {s : Span α} (hs : s ∈ trace) :
    checked.register[s.id]? = some s :=
  (h.holds _ _).2 ⟨hs, rfl⟩

/-- Lines from the root end within the levels that a chart has. -/
theorem ends_levels (h : checked.Describes trace) :
    checked.children.generation (checked.children.size + 1) checked.root = [] :=
  Children.generation_size h.ends

/-- What descends from the root within these levels are the spans of the trace. -/
theorem mem_descent_iff (h : checked.Describes trace) {id : SpanId} :
    id ∈ checked.children.descent (checked.children.size + 1) checked.root ↔
      ∃ s ∈ trace, s.id = id := by
  obtain ⟨r, hroots, hr⟩ := h.root
  have hends := h.ends_levels
  rw [h.children_eq, ← hr] at hends ⊢
  constructor
  · intro hid
    obtain ⟨k, _, hk⟩ := Children.mem_descent.1 hid
    exact exists_mem_of_mem_generation (mem_of_filter_eq hroots).1 hk
  · rintro ⟨s, hs, rfl⟩
    have hmem := (mem_descent_iff_climbs h.registrable.distinct hroots hs).2 (h.climbs s hs)
    obtain ⟨k, _, hk⟩ := Children.mem_descent.1 hmem
    exact Children.mem_descent_of_mem_generation hends hk

/-- A span is timed where it is registered exactly if it is in the trace. -/
theorem timely_iff (h : checked.Describes trace) :
    Timely trace ↔ ∀ s ∈ trace, Chart.Timed checked.register checked.children s := by
  refine forall₂_congr fun s hs => ?_
  unfold Chart.Timed
  rw [ne_eq, h.of_eq_nil_iff hs]
  have hparts : (∀ c ∈ checked.children.of s.id, ∀ t, checked.register[c]? = some t →
      IsNumber t.finish) ↔ ∀ t ∈ trace, t.parent = s.id → IsNumber t.finish := by
    constructor
    · intro hall t ht hparent
      exact hall t.id ((h.mem_of_iff hs).2 ⟨t, ht, hparent, rfl⟩) t (h.getElem?_register ht)
    · intro hall c hc t ht
      obtain ⟨t', ht', hparent, rfl⟩ := (h.mem_of_iff hs).1 hc
      rw [h.getElem?_register ht'] at ht
      obtain rfl := Option.some.inj ht
      exact hall t' ht' hparent
  -- one says that there are children, the other that there is a child
  rw [hparts]
  refine and_congr_right fun _ => ?_
  constructor
  · intro hall hsome hjoin
    push Not at hsome
    obtain ⟨u, hu, huparent⟩ := hsome
    exact ⟨(hall hjoin u hu huparent).1, fun t ht hparent => (hall hjoin t ht hparent).2⟩
  · intro hall hjoin t ht hparent
    have hsome : ¬∀ t ∈ trace, t.parent ≠ s.id := fun hnone => hnone t ht hparent
    exact ⟨(hall hsome hjoin).1, (hall hsome hjoin).2 t ht hparent⟩

variable [Ordered α]

/-- **Charting a trace that passed** succeeds if the trace is timely, and ends in disorder if it is
    not.  Nothing else can happen. -/
theorem decides_ofSpan (h : checked.Describes trace) :
    Chart.Decides (Chart.ofSpan checked.register checked.children checked.root) (Timely trace)
      fun _ => True := by
  have hregister : ∀ x ∈ checked.children.descent (checked.children.size + 1) checked.root,
      ∃ s, checked.register[x]? = some s ∧ s.id = x ∧ ¬s.finish < s.start := by
    intro x hx
    obtain ⟨s, hs, rfl⟩ := h.mem_descent_iff.1 hx
    exact ⟨s, h.getElem?_register hs, rfl, h.registrable.forwards s hs⟩
  refine (Chart.decides_ofSpanWithin h.ends_levels hregister).congr (h.timely_iff.trans ?_).symm
  constructor
  · intro hall x _ s hs
    exact hall s ((h.holds _ _).1 hs).1
  · intro hall s hs
    exact hall s.id (h.mem_descent_iff.2 ⟨s, hs, rfl⟩) s (h.getElem?_register hs)

end Checked.Describes

/-- A trace is rejected for what the checks find, and for nothing else. -/
theorem ofTrace_eq_rejected_iff {defect : Defect α} :
    ofTrace trace = .error (.rejected defect) ↔ check trace = .error defect := by
  unfold ofTrace
  cases check trace with
  | error d => simp
  | ok checked =>
    cases hchart : Chart.ofSpan checked.register checked.children checked.root <;> simp [hchart]

variable [Ordered α]

/-- A trace is laid out if it passes and is timely. -/
theorem exists_ofTrace_iff :
    (∃ layout, ofTrace trace = .ok layout) ↔
      (∃ checked, check trace = .ok checked) ∧ Timely trace := by
  unfold ofTrace
  cases hcheck : check trace with
  | error defect => simp
  | ok checked =>
    obtain ⟨hok, hdisorder⟩ := (describes_of_check hcheck).decides_ofSpan
    by_cases htimely : Timely trace
    · obtain ⟨chart, hchart, _⟩ := hok htimely
      simp [hchart, htimely]
    · simp [hdisorder htimely, htimely]

/-- A trace breaks if it passes and is not timely, and only in one way. -/
theorem ofTrace_eq_broken_iff {fault : Fault} :
    ofTrace trace = .error (.broken fault) ↔
      (∃ checked, check trace = .ok checked) ∧ ¬Timely trace ∧ fault = .disorder := by
  unfold ofTrace
  cases hcheck : check trace with
  | error defect => simp
  | ok checked =>
    obtain ⟨hok, hdisorder⟩ := (describes_of_check hcheck).decides_ofSpan
    by_cases htimely : Timely trace
    · obtain ⟨chart, hchart, _⟩ := hok htimely
      simp [hchart, htimely]
    · simp [hdisorder htimely, htimely, eq_comm]

/-! ## Binary64 -/

section Binary64

variable {trace : Trace Float}

/-- A trace of numbers is timely. -/
theorem timely_of_isNaN_eq_false
    (numbers : ∀ s ∈ trace, s.start.isNaN = false ∧ s.finish.isNaN = false) : Timely trace := by
  have hstart := fun s hs => Scalar.isNumber_float.2 (numbers s hs).1
  have hfinish := fun s hs => Scalar.isNumber_float.2 (numbers s hs).2
  intro s hs
  exact ⟨fun _ => ⟨hstart s hs, hfinish s hs⟩, fun _ t ht _ => ⟨hstart s hs, hfinish t ht⟩⟩

/-- In a trace of numbers not to be reversed is to be ordered, so that the checks accept exactly the
    well-formed traces. -/
theorem exists_check_iff_wellFormed
    (numbers : ∀ s ∈ trace, s.start.isNaN = false ∧ s.finish.isNaN = false) :
    (∃ checked, check trace = .ok checked) ↔ WellFormed trace := by
  rw [exists_check_iff]
  constructor
  · rintro ⟨rooted, forwards⟩
    refine ⟨rooted, fun s hs => (Scalar.le_iff_of_not_lt (forwards s hs)).2 ?_⟩
    exact ⟨Scalar.isNumber_float.2 (numbers s hs).1, Scalar.isNumber_float.2 (numbers s hs).2⟩
  · intro h
    exact ⟨h.toRooted, fun s hs => Ordered.not_lt_of_le (h.ordered s hs)⟩

/-- The three places at which a NaN keeps a trace from being timely. -/
theorem not_timely_iff :
    ¬Timely trace ↔
      (∃ s ∈ trace, (∀ t ∈ trace, t.parent ≠ s.id) ∧ (s.start.isNaN ∨ s.finish.isNaN)) ∨
        (∃ s ∈ trace, s.isJoin = false ∧ (∃ t ∈ trace, t.parent = s.id) ∧ s.start.isNaN) ∨
        ∃ s ∈ trace, ∃ t ∈ trace, s.isJoin = false ∧ t.parent = s.id ∧ t.finish.isNaN := by
  unfold Timely
  simp only [Scalar.isNumber_float]
  constructor
  · intro h
    push Not at h
    obtain ⟨s, hs, h⟩ := h
    by_cases hleaf : ∀ t ∈ trace, t.parent ≠ s.id
    · grind
    · grind
  · rintro (⟨s, hs, hleaf, hnan⟩ | ⟨s, hs, hjoin, ⟨t, ht, hparent⟩, hnan⟩ |
      ⟨s, hs, t, ht, hjoin, hparent, hnan⟩) htimely
    · have := (htimely s hs).1 hleaf
      grind
    · have := (htimely s hs).2 hjoin t ht hparent
      grind
    · have := (htimely s hs).2 hjoin t ht hparent
      grind

/-- **Only a NaN breaks anything.**  Whatever the trace, no chart fails for want of a span or for
    an empty group, nor for a circle; and it fails for a disordered task exactly if the trace passes
    the checks and has a NaN for one of these: the start or the end of a span without children, the
    start of a span with children that is no join, the end of a child of such a span.  So a trace
    that passes and has no NaN is laid out. -/
theorem breaks_iff_isNaN (trace : Trace Float) :
    (∀ fault, ofTrace trace = .error (.broken fault) → fault = .disorder) ∧
    (ofTrace trace = .error (.broken .disorder) ↔
      (∃ checked, check trace = .ok checked) ∧
        ((∃ s ∈ trace, (∀ t ∈ trace, t.parent ≠ s.id) ∧ (s.start.isNaN ∨ s.finish.isNaN)) ∨
          (∃ s ∈ trace, s.isJoin = false ∧ (∃ t ∈ trace, t.parent = s.id) ∧ s.start.isNaN) ∨
          ∃ s ∈ trace, ∃ t ∈ trace, s.isJoin = false ∧ t.parent = s.id ∧ t.finish.isNaN)) ∧
    ((∃ checked, check trace = .ok checked) →
      (∀ s ∈ trace, s.start.isNaN = false ∧ s.finish.isNaN = false) →
        ∃ layout, ofTrace trace = .ok layout) := by
  refine ⟨?_, ?_, ?_⟩
  · intro fault h
    exact (ofTrace_eq_broken_iff.1 h).2.2
  · rw [ofTrace_eq_broken_iff, not_timely_iff]
    simp only [and_true]
  · intro hcheck numbers
    exact exists_ofTrace_iff.2 ⟨hcheck, timely_of_isNaN_eq_false numbers⟩

/-- **A trace of numbers is laid out if it is well-formed and rejected if it is not.** -/
theorem exists_ofTrace_iff_wellFormed (trace : Trace Float)
    (numbers : ∀ s ∈ trace, s.start.isNaN = false ∧ s.finish.isNaN = false) :
    ((∃ layout, ofTrace trace = .ok layout) ↔ WellFormed trace) ∧
      (¬WellFormed trace → ∃ defect, ofTrace trace = .error (.rejected defect)) := by
  have hcheck := exists_check_iff_wellFormed numbers
  constructor
  · rw [exists_ofTrace_iff, hcheck]
    exact and_iff_left (timely_of_isNaN_eq_false numbers)
  · intro h
    cases hdefect : check trace with
    | error defect => exact ⟨defect, ofTrace_eq_rejected_iff.2 hdefect⟩
    | ok checked => exact absurd (hcheck.1 ⟨checked, hdefect⟩) h

/-- A join with two children that overlap, one of which outlasts its parents while the other starts
    before them, and which are recorded before the join and the root are. -/
theorem exists_layout_of_overlapping :
    let trace : Trace Float :=
      [⟨3, 2, 1, 12, 0, ""⟩, ⟨4, 2, -5, 3, 1, ""⟩, ⟨2, 1, 1, 9, 0, "join"⟩, ⟨1, 0, 0, 10, 0, ""⟩]
    (∀ s ∈ trace, s.start.isNaN = false ∧ s.finish.isNaN = false) ∧ WellFormed trace ∧
      ∃ layout, ofTrace trace = .ok layout := by
  intro trace
  have numbers : ∀ s ∈ trace, s.start.isNaN = false ∧ s.finish.isNaN = false := by decide
  have root : Climbs trace 1 ⟨1, 0, 0, 10, 0, ""⟩ := .root (by decide) rfl
  have join : Climbs trace 2 ⟨2, 1, 1, 9, 0, "join"⟩ := .up (by decide) (by decide) rfl root
  have wellFormed : WellFormed trace := by
    refine ⟨⟨by decide, by decide, by decide, by decide, ?_⟩, by decide⟩
    intro s hs
    simp only [trace, List.mem_cons, List.not_mem_nil, or_false] at hs
    rcases hs with rfl | rfl | rfl | rfl
    · exact ⟨3, by decide, .up (by decide) (by decide) rfl join⟩
    · exact ⟨3, by decide, .up (by decide) (by decide) rfl join⟩
    · exact ⟨2, by decide, join⟩
    · exact ⟨1, by decide, root⟩
  exact ⟨numbers, wellFormed, (exists_ofTrace_iff_wellFormed trace numbers).1.2 wellFormed⟩

end Binary64

end Layout

end SpanChart
