/-
  FINDINGS — what registering a trace finds wrong, and what the register is left with.

  A trace is looked through twice, and the first thing found ends it.  What is wrong with a span by
  itself or with its id is judged against the spans before it (`Flaw`); what is wrong with the
  parent it gives is judged against all of them (`ParentFlaw`).  Neither says anything about the
  other spans that are wrong too, so the trace is taken apart at the span in question: `Earliest` is
  a cut with nothing to find before it.

  1. `Holds` — what a register has to do with the spans entered so far: it has them under their
     ids, and it has as many entries.
  2. `enter_of_holds` — one span at a time: a register that holds the spans before refuses a span
     exactly for its flaw (`refusal?_iff`), and holds one span more otherwise (`Holds.insert`).  By
     induction on the trace the first refusal is the earliest flaw, and where there is none all of
     it is held.
  3. `refill_reports` puts the two passes together.
-/
import SpanChart.Proofs.Registration
import SpanChart.Proofs.Wording

namespace SpanChart

variable {α : Type}

/-! ## What can be wrong -/

/-- What is wrong with a span that follows the spans `before`, parents apart.  Only the first of
    these counts: a span with a reserved id is not asked for its times. -/
@[mk_iff]
inductive Flaw [Scalar α] (before : Trace α) (s : Span α) : Defect α → Prop
  | reserved (h : s.id = noParent) : Flaw before s .reservedId
  | backwards (named : s.id ≠ noParent) (h : s.finish < s.start) :
      Flaw before s (.reversed s.id s.start s.finish)
  | taken (named : s.id ≠ noParent) (forwards : ¬s.finish < s.start) (t : Span α) (ht : t ∈ before)
      (h : t.id = s.id) : Flaw before s (.duplicate s.id)

/-- What is wrong with the parent that a span of a trace gives. -/
@[mk_iff]
inductive ParentFlaw (trace : Trace α) (s : Span α) : Defect α → Prop
  | own (given : s.parent ≠ noParent) (h : s.parent = s.id) : ParentFlaw trace s (.ownParent s.id)
  | unknown (given : s.parent ≠ noParent) (other : s.parent ≠ s.id)
      (h : ∀ t ∈ trace, t.id ≠ s.parent) : ParentFlaw trace s (.unknownParent s.id s.parent)

/-- Nothing is wrong with any span of a trace, by what `wrong` says of a span and those before
    it. -/
def Flawless (wrong : Trace α → Span α → Defect α → Prop) (trace : Trace α) : Prop :=
  ∀ before s after, trace = before ++ s :: after → ∀ defect, ¬wrong before s defect

/-- The trace begins with `before`, with nothing wrong there, and the next span has the defect. -/
structure Earliest (wrong : Trace α → Span α → Defect α → Prop) (trace before : Trace α)
    (defect : Defect α) : Prop where
  found : ∃ s after, trace = before ++ s :: after ∧ wrong before s defect
  nothingBefore : Flawless wrong before

section Scanning

variable {wrong : Trace α → Span α → Defect α → Prop} {s : Span α} {trace before : Trace α}
  {defect : Defect α}

theorem flawless_nil : Flawless wrong [] :=
  fun _ _ _ h => absurd h (by simp)

/-- A trace is flawless if its first span is, and the rest is behind that one. -/
theorem Flawless.cons (hs : ∀ d, ¬wrong [] s d)
    (htrace : Flawless (fun before => wrong (s :: before)) trace) :
    Flawless wrong (s :: trace) := by
  intro before t after h
  cases before with
  | nil =>
    obtain ⟨rfl, -⟩ := List.cons.inj h
    exact hs
  | cons u before =>
    obtain ⟨rfl, rfl⟩ := List.cons.inj h
    exact htrace before t after rfl

/-- Nothing is earlier than the first span. -/
theorem Earliest.head (h : wrong [] s defect) : Earliest wrong (s :: trace) [] defect :=
  ⟨⟨s, trace, rfl, h⟩, flawless_nil⟩

/-- Behind a span with nothing wrong the search goes on. -/
theorem Earliest.cons (hs : ∀ d, ¬wrong [] s d)
    (h : Earliest (fun before => wrong (s :: before)) trace before defect) :
    Earliest wrong (s :: trace) (s :: before) defect := by
  obtain ⟨⟨t, after, rfl, ht⟩, hbefore⟩ := h
  exact ⟨⟨t, after, rfl, ht⟩, hbefore.cons hs⟩

end Scanning

/-! ## The step and the run of the first pass -/

namespace Register

/-- The register has the spans of the list under their ids, and nothing else. -/
structure Holds (register : Register α) (spans : List (Span α)) : Prop where
  lookup : ∀ id s, register[id]? = some s ↔ s ∈ spans ∧ s.id = id
  size : register.size = spans.length

theorem holds_empty : Holds (∅ : Register α) [] := ⟨by simp, Std.TreeMap.size_emptyc⟩

namespace Holds

variable {register : Register α} {seen : List (Span α)}

/-- The ids in the register are those of the spans. -/
theorem mem_iff (h : register.Holds seen) {id : SpanId} :
    id ∈ register ↔ ∃ t ∈ seen, t.id = id := by
  rw [← Std.TreeMap.isSome_getElem?_iff_mem, Option.isSome_iff_exists]
  exact exists_congr fun t => h.lookup id t

/-- A span with a new id is one more that is held. -/
theorem insert (h : register.Holds seen) {s : Span α} (hs : s.id ∉ register) :
    Holds (register.insert s.id s) (seen ++ [s]) := by
  constructor
  · intro id t
    rw [Std.TreeMap.getElem?_insert, List.mem_append, List.mem_singleton, or_and_right, ← h.lookup]
    by_cases hid : s.id = id
    -- under the new id there was nothing, so that nothing is lost
    · subst hid
      have hnew : register[s.id]? = none := Std.TreeMap.getElem?_eq_none hs
      simp only [Std.LawfulEqCmp.compare_eq_iff_eq, if_true, hnew, Option.some.injEq, reduceCtorEq,
        false_or]
      exact ⟨fun hst => hst ▸ ⟨rfl, rfl⟩, fun ht => ht.1.symm⟩
    · rw [if_neg (by simpa using hid)]
      refine ⟨Or.inl, fun ht => ht.resolve_right fun hst => ?_⟩
      exact hid (hst.1 ▸ hst.2)
  · rw [Std.TreeMap.size_insert, if_neg (by simpa using hs), h.size, List.length_append,
      List.length_singleton]

/-- **The step.**  A span is refused for what is wrong with it, given the spans that are held. -/
theorem refusal?_iff [Scalar α] (h : register.Holds seen) {s : Span α} {defect : Defect α} :
    register.refusal? s = some defect ↔ Flaw seen s defect := by
  have htaken : register.contains s.id = true ↔ ∃ t ∈ seen, t.id = s.id :=
    Std.TreeMap.contains_iff_mem.trans h.mem_iff
  rw [refusal?, flaw_iff]
  split
  case isTrue reserved => grind
  case isFalse named =>
    split
    case isTrue backwards => grind
    case isFalse forwards =>
      split
      case isTrue taken => grind
      case isFalse free => grind

/-- A parent is defective for what is wrong with it, given the spans of the whole trace. -/
theorem parentDefect?_iff (h : register.Holds seen) {s : Span α} {defect : Defect α} :
    register.parentDefect? s = some defect ↔ ParentFlaw seen s defect := by
  have hknown : register.contains s.parent = true ↔ ∃ t ∈ seen, t.id = s.parent :=
    Std.TreeMap.contains_iff_mem.trans h.mem_iff
  rw [parentDefect?, parentFlaw_iff]
  split
  case isTrue missing => grind
  case isFalse given =>
    split
    case isTrue own => grind
    case isFalse other =>
      split
      case isTrue known => grind
      case isFalse unknown => grind

end Holds

variable [Scalar α]

/-- **The run of the first pass.**  Entering into a register that holds the spans before goes on to
    the first span with a flaw, or to the end of the trace if there is none; what it went past is
    held. -/
theorem enter_of_holds {register : Register α} {seen : List (Span α)} (h : register.Holds seen)
    (trace : Trace α) :
    (∃ before defect, Earliest (fun before => Flaw (seen ++ before)) trace before defect ∧
        (register.enter trace).2 = some defect ∧
        Holds (register.enter trace).1 (seen ++ before)) ∨
      Flawless (fun before => Flaw (seen ++ before)) trace ∧
        (register.enter trace).2 = none ∧ Holds (register.enter trace).1 (seen ++ trace) := by
  induction trace generalizing register seen with
  | nil => exact Or.inr ⟨flawless_nil, rfl, by rwa [List.append_nil]⟩
  | cons s trace ih =>
    rw [enter]
    cases hs : register.refusal? s with
    | some defect =>
      have hflaw : Flaw (seen ++ []) s defect := by
        rw [List.append_nil]
        exact h.refusal?_iff.1 hs
      exact Or.inl ⟨[], defect, .head hflaw, rfl, by rwa [List.append_nil]⟩
    | none =>
      have hsound : ∀ d, ¬Flaw (seen ++ []) s d := by
        intro d
        rw [List.append_nil, ← h.refusal?_iff, hs]
        exact (Option.some_ne_none d).symm
      -- the rest is looked through with `s` among the spans that were seen
      have ih := ih (h.insert (refusal?_eq_none_iff.1 hs).2.2)
      simp only [List.append_assoc, List.singleton_append] at ih
      rcases ih with ⟨before, defect, hearliest, hreport, hholds⟩ | ⟨hflawless, hreport, hholds⟩
      · exact Or.inl ⟨s :: before, defect, hearliest.cons hsound, hreport, hholds⟩
      · exact Or.inr ⟨hflawless.cons hsound, hreport, hholds⟩

omit [Scalar α] in
/-- The second pass finds the earliest of the parents that something is wrong with. -/
theorem findSome?_parentDefect?_of_holds {register : Register α} {trace : Trace α}
    (h : register.Holds trace) {defect : Defect α}
    (hfound : trace.findSome? register.parentDefect? = some defect) :
    ∃ before, Earliest (fun _ => ParentFlaw trace) trace before defect := by
  obtain ⟨before, s, after, htrace, hs, hbefore⟩ := List.findSome?_eq_some_iff.1 hfound
  refine ⟨before, ⟨s, after, htrace, h.parentDefect?_iff.1 hs⟩, ?_⟩
  rintro earlier t later rfl d hd
  rw [← h.parentDefect?_iff, hbefore t (by simp)] at hd
  exact absurd hd nofun

/-! ## Both passes -/

/-- A register is emptied. -/
def cleared (_register : Register α) : Register α := ∅

/-- Registers a trace in the place of whatever was held, which is dropped first. -/
def refill (held : Register α) (trace : Trace α) : Register α × Option (Defect α) :=
  match enter held.cleared trace with
  | (register, some defect) => (register, some defect)
  | (register, none) => (register, trace.findSome? register.parentDefect?)

/-- A register that is filled anew is as good as a new one. -/
theorem refill_eq_check (held : Register α) (trace : Trace α) : held.refill trace = check trace :=
  rfl

theorem check_eq_none_iff {trace : Trace α} : (check trace).2 = none ↔ Registrable trace := by
  have hok : (check trace).2 = none ↔ ∃ register, ofTrace? trace = .ok register := by
    unfold ofTrace?
    rcases check trace with ⟨register, _ | defect⟩ <;> simp
  rw [hok]
  exact ⟨fun ⟨_, h⟩ => (ofTrace?_eq_ok h).1, exists_ofTrace?⟩

/-- The first pass ends the check with what it finds; otherwise all of the trace is held, and what
    is reported is what the second pass finds. -/
theorem check_cases (trace : Trace α) :
    (∃ before defect, Earliest Flaw trace before defect ∧
        (check trace).2 = some defect ∧ Holds (check trace).1 before) ∨
      Flawless Flaw trace ∧ Holds (check trace).1 trace ∧
        ∀ defect, (check trace).2 = some defect →
          ∃ before, Earliest (fun _ => ParentFlaw trace) trace before defect := by
  have hrun := enter_of_holds holds_empty trace
  simp only [List.nil_append] at hrun
  rw [check]
  generalize enter ∅ trace = entered at hrun ⊢
  obtain ⟨register, report⟩ := entered
  rcases hrun with ⟨before, defect, hearliest, rfl, hholds⟩ | ⟨hflawless, rfl, hholds⟩
  · exact Or.inl ⟨before, defect, hearliest, rfl, hholds⟩
  · exact Or.inr ⟨hflawless, hholds, fun defect => findSome?_parentDefect?_of_holds hholds⟩

/-- **The first defect and nothing else.**  Whatever a register held before, filling it with a
    trace ends in one of two ways.

    Nothing is reported exactly if the trace is `Registrable`: no id is reserved, no span ends
    before it starts, no id comes twice, and who gives a parent gives another span of the trace.
    The register then holds the trace, each span under its id, and has as many entries as that has
    spans.

    Otherwise one line is written.  It is for the earliest span with a reserved id, times out of
    order or the id of a span before it, in this order where a span has several of these, and the
    register holds the spans before that one.  Only where no span is like that it is for the
    earliest that gives itself or a span that is nowhere in the trace as its parent, and the
    register holds the whole trace. -/
theorem refill_reports (held : Register Float) (trace : Trace Float) :
    (Registrable trace ∧ (held.refill trace).2 = none ∧ Holds (held.refill trace).1 trace) ∨
      ¬Registrable trace ∧ ∃ defect, (held.refill trace).2 = some defect ∧
        IsErrorLine defect.message ∧
        ((∃ before, Earliest Flaw trace before defect ∧ Holds (held.refill trace).1 before) ∨
          Flawless Flaw trace ∧
            (∃ before, Earliest (fun _ => ParentFlaw trace) trace before defect) ∧
            Holds (held.refill trace).1 trace) := by
  rw [refill_eq_check, ← check_eq_none_iff]
  rcases check_cases trace with
    ⟨before, defect, hearliest, hreport, hholds⟩ | ⟨hflawless, hholds, hparents⟩
  · refine Or.inr ⟨by simp [hreport], defect, hreport, isErrorLine_message defect, ?_⟩
    exact Or.inl ⟨before, hearliest, hholds⟩
  · cases hreport : (check trace).2 with
    | none => exact Or.inl ⟨rfl, rfl, hholds⟩
    | some defect =>
      refine Or.inr ⟨nofun, defect, rfl, isErrorLine_message defect, ?_⟩
      exact Or.inr ⟨hflawless, hparents defect hreport, hholds⟩

end Register

end SpanChart
