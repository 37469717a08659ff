/-
  REGISTRATION — which traces can be entered in a register, and what the register holds then.

  Entering goes span by span, and each is held against those before it; the parents are looked at in
  a second pass, against all.  `Registrable` says of a trace as a whole what the two passes find out
  step by step.  `ofTrace?_eq_ok` and `exists_ofTrace?` say that these are the same traces, and that
  the register gives back the spans of the trace under their ids, nothing more and nothing less.
-/
import Mathlib.Data.List.Nodup
import SpanChart.Trace.Register

namespace SpanChart

variable {α : Type}

/-! ## Spans and their ids -/

/-- In a trace without repeated ids a span is known by its id. -/
theorem eq_of_id_eq {trace : Trace α} (distinct : (trace.map Span.id).Nodup) {s t : Span α}
    (hs : s ∈ trace) (ht : t ∈ trace) (h : s.id = t.id) : s = t :=
  List.inj_on_of_nodup_map distinct hs ht h

variable [Scalar α]

/-- A trace in which nothing shows that is wrong with a span or with the parent it gives. -/
structure Registrable (trace : Trace α) : Prop where
  named : ∀ s ∈ trace, s.id ≠ noParent
  forwards : ∀ s ∈ trace, ¬s.finish < s.start
  distinct : (trace.map Span.id).Nodup
  parents : ∀ s ∈ trace, s.parent ≠ noParent → s.parent ≠ s.id ∧ ∃ t ∈ trace, t.id = s.parent

namespace Register

/-! ## Entering -/

theorem refusal?_eq_none_iff {register : Register α} {s : Span α} :
    register.refusal? s = none ↔
      s.id ≠ noParent ∧ ¬s.finish < s.start ∧ s.id ∉ register := by
  unfold refusal?
  split
  · simp_all
  · split
    · simp_all
    · simp_all

/-- Spans are all entered if none is refused for what it is, nor its id for being taken. -/
theorem enter_eq_none_iff {register : Register α} {trace : Trace α} :
    (register.enter trace).2 = none ↔
      (∀ s ∈ trace, s.id ≠ noParent ∧ ¬s.finish < s.start ∧ s.id ∉ register) ∧
        (trace.map Span.id).Nodup := by
  induction trace generalizing register with
  | nil => simp [enter]
  | cons s trace ih =>
    rw [enter, List.forall_mem_cons, ← refusal?_eq_none_iff, List.map_cons, List.nodup_cons]
    cases h : register.refusal? s with
    | some defect => simp
    | none =>
      rw [ih]
      -- an id is free afterwards if it was before and is not the one entered
      have hfree : ∀ t : Span α, t.id ∉ register.insert s.id s ↔ t.id ≠ s.id ∧ t.id ∉ register := by
        intro t
        rw [Std.TreeMap.mem_insert, Std.LawfulEqCmp.compare_eq_iff_eq]
        grind
      simp only [hfree]
      grind

/-- A register after spans with new ids were entered: it holds these and what it held before. -/
theorem getElem?_enter {register : Register α} {trace : Trace α}
    (h : (register.enter trace).2 = none) {id : SpanId} {s : Span α} :
    (register.enter trace).1[id]? = some s ↔ (s ∈ trace ∧ s.id = id) ∨ register[id]? = some s := by
  induction trace generalizing register with
  | nil => simp [enter]
  | cons t trace ih =>
    obtain ⟨ht, _⟩ := (List.forall_mem_cons.1 (enter_eq_none_iff.1 h).1)
    have hnone := refusal?_eq_none_iff.2 ht
    have henter : register.enter (t :: trace) = enter (register.insert t.id t) trace := by
      rw [enter, hnone]
    rw [henter] at h ⊢
    rw [ih h, Std.TreeMap.getElem?_insert]
    simp only [Std.LawfulEqCmp.compare_eq_iff_eq]
    have hnew : register[t.id]? = none := Std.TreeMap.getElem?_eq_none ht.2.2
    grind

/-! ## Parents -/

omit [Scalar α] in
theorem parentDefect?_eq_none_iff {register : Register α} {s : Span α} :
    register.parentDefect? s = none ↔
      (s.parent ≠ noParent → s.parent ≠ s.id ∧ s.parent ∈ register) := by
  unfold parentDefect?
  split
  · simp_all
  · split
    · simp_all
    · simp_all

/-- A register is made of a trace if both passes find nothing. -/
theorem ofTrace?_eq_ok_iff {trace : Trace α} {register : Register α} :
    ofTrace? trace = .ok register ↔
      enter ∅ trace = (register, none) ∧ ∀ s ∈ trace, register.parentDefect? s = none := by
  unfold ofTrace? check
  rcases enter ∅ trace with ⟨entered, _ | defect⟩
  · rw [← List.findSome?_eq_none_iff]
    cases h : trace.findSome? entered.parentDefect? <;> grind
  · simp

/-- **What a register holds** are the spans of its trace, each under its own id, and the trace is
    one that can be registered. -/
theorem ofTrace?_eq_ok {trace : Trace α} {register : Register α}
    (h : ofTrace? trace = .ok register) :
    Registrable trace ∧ ∀ id s, register[id]? = some s ↔ s ∈ trace ∧ s.id = id := by
  obtain ⟨hentered, hparents⟩ := ofTrace?_eq_ok_iff.1 h
  have hnone : (enter ∅ trace).2 = none := by rw [hentered]
  obtain ⟨hspans, distinct⟩ := enter_eq_none_iff.1 hnone
  have hholds : ∀ id s, register[id]? = some s ↔ s ∈ trace ∧ s.id = id := by
    intro id s
    have hlookup : (enter ∅ trace).1[id]? = some s ↔ _ := getElem?_enter hnone
    rw [hentered] at hlookup
    simpa using hlookup
  refine ⟨⟨fun s hs => (hspans s hs).1, fun s hs => (hspans s hs).2.1, distinct, ?_⟩, hholds⟩
  intro s hs hparent
  obtain ⟨hown, hmem⟩ := parentDefect?_eq_none_iff.1 (hparents s hs) hparent
  obtain ⟨t, ht⟩ := Option.isSome_iff_exists.1 (Std.TreeMap.isSome_getElem?_iff_mem.2 hmem)
  exact ⟨hown, t, (hholds _ _).1 ht⟩

/-- **Every trace that can be registered is.** -/
theorem exists_ofTrace? {trace : Trace α} (h : Registrable trace) :
    ∃ register, ofTrace? trace = .ok register := by
  have hnone : (enter (∅ : Register α) trace).2 = none := by
    refine enter_eq_none_iff.2 ⟨fun s hs => ⟨h.named s hs, h.forwards s hs, ?_⟩, h.distinct⟩
    exact Std.TreeMap.not_mem_emptyc
  refine ⟨(enter ∅ trace).1, ofTrace?_eq_ok_iff.2 ⟨by rw [← hnone], ?_⟩⟩
  intro s hs
  refine parentDefect?_eq_none_iff.2 fun hparent => ?_
  obtain ⟨hown, t, ht, hid⟩ := h.parents s hs hparent
  refine ⟨hown, Std.TreeMap.isSome_getElem?_iff_mem.1 ?_⟩
  rw [(getElem?_enter hnone).2 (Or.inl ⟨ht, hid⟩)]
  rfl

end Register

end SpanChart
