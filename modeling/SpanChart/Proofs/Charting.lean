/-
  CHARTING — what can go wrong between a trace that passed and its chart.

  Charts are built by constructors that refuse (`Task.of?`, `Chart.group?`) deep inside a recursion
  that looks spans up and counts its levels.  Of all the faults there are only one can come up, a
  task with disordered times, and the file finds out exactly where.  Each step of the recursion
  *decides* a property of what it charts: it succeeds if the property holds and is disordered if
  not (`Decides`).  Deciding composes along `>>=` and over lists, so the property of a chart is read
  off its construction:

  * a task of a span decides that its times are numbers, because they are known not to be reversed;
  * idle time decides that the time it starts at is a number, and nothing about the other end: the
    larger of the two is taken, and that is the first where the second does not compare;
  * a join decides what its children do, and nothing of its own.

  Idle time starts where the parent does and where each child ends.  So the spans that are charted
  are those that are `Timed`, one by one (`decides_ofSpanWithin`).  Overlaps, the order of the
  children and whether they stay inside their parent do not come up anywhere.
-/
import SpanChart.Chart.OfSpans
import SpanChart.Proofs.Descent
import SpanChart.Proofs.Numbers

namespace SpanChart.Chart

open Scalar (IsNumber Ordered larger)

/-! ## Attempts that decide something -/

section Decides

variable {β γ : Type}

/-- The attempt succeeds if `P` holds, with an outcome of which `Q` holds, and is disordered if `P`
    does not hold. -/
def Decides (attempt : Except Fault β) (P : Prop) (Q : β → Prop) : Prop :=
  (P → ∃ b, attempt = .ok b ∧ Q b) ∧ (¬P → attempt = .error .disorder)

variable {P P' : Prop} {Q : β → Prop} {Q' : γ → Prop}

/-- A step that cannot fail decides what holds anyway. -/
theorem decides_ok {b : β} (hP : P) (hb : Q b) : Decides (.ok b) P Q :=
  ⟨fun _ => ⟨b, rfl, hb⟩, fun h => absurd hP h⟩

theorem Decides.congr {attempt : Except Fault β} (h : Decides attempt P Q) (hP : P ↔ P') :
    Decides attempt P' Q := by
  rwa [← propext hP]

/-- Of two attempts the second is made with what the first one gave, and only then. -/
theorem Decides.bind {attempt : Except Fault β} {next : β → Except Fault γ}
    (h : Decides attempt P Q) (hnext : ∀ b, Q b → Decides (next b) P' Q') :
    Decides (attempt >>= next) (P ∧ P') Q' := by
  by_cases hP : P
  · obtain ⟨b, rfl, hb⟩ := h.1 hP
    show Decides (next b) _ Q'
    exact (hnext b hb).congr ⟨fun hP' => ⟨hP, hP'⟩, And.right⟩
  · rw [h.2 hP]
    exact ⟨fun hboth => absurd hboth.1 hP, fun _ => rfl⟩

/-- What is done with an outcome changes nothing of what is decided. -/
theorem Decides.map {attempt : Except Fault β} {f : β → γ} (h : Decides attempt P Q)
    (hf : ∀ b, Q b → Q' (f b)) : Decides (f <$> attempt) P Q' := by
  constructor
  · intro hP
    obtain ⟨b, rfl, hb⟩ := h.1 hP
    exact ⟨f b, rfl, hf b hb⟩
  · intro hP
    rw [h.2 hP]
    rfl

/-- Attempts one after another decide all of it, and leave as many outcomes. -/
theorem decides_mapM {ids : List SpanId} {f : SpanId → Except Fault β} {P : SpanId → Prop}
    (h : ∀ c ∈ ids, Decides (f c) (P c) fun _ => True) :
    Decides (ids.mapM f) (∀ c ∈ ids, P c) fun bs => bs.length = ids.length := by
  induction ids with
  | nil => exact decides_ok (by simp) rfl
  | cons c ids ih =>
    have hrest := ih fun d hd => h d (List.mem_cons_of_mem _ hd)
    rw [List.mapM_cons, List.forall_mem_cons]
    refine (h c List.mem_cons_self).bind fun b _ => ?_
    refine Decides.congr (hrest.bind fun bs hbs => decides_ok trivial ?_) (iff_of_eq (and_true _))
    exact congrArg Nat.succ hbs

end Decides

/-! ## Tasks and groups -/

variable {α : Type} [Scalar α]

/-- A task is refused for its times only. -/
theorem decides_task (start finish : α) (thread : UInt64) (idle : Bool) :
    Decides (Task.of? start finish thread idle) (start ≤ finish) fun _ => True :=
  ⟨fun h => ⟨_, Task.of?_of_le h thread idle, trivial⟩,
    fun h => Task.of?_of_not_le h thread idle⟩

/-- A group that has parts is not refused. -/
theorem decides_group? (flow : Flow) {parts : List (Chart α)} (h : parts ≠ []) :
    Decides (group? flow parts) True fun _ => True := by
  obtain ⟨first, rest, rfl⟩ := List.exists_cons_of_ne_nil h
  exact decides_ok trivial trivial

variable [Ordered α] {register : Register α} {children : Children}

/-- Idle time is refused if the time it starts at is no number. -/
theorem decides_idle (since next : α) (thread : UInt64) :
    Decides (Task.of? since (larger since next) thread true) (IsNumber since) fun _ => True :=
  (decides_task _ _ _ _).congr Scalar.le_larger_iff

/-- The parts of a sequence are refused if idle time would start at no number, be it the start of
    the whole or the end of a child; or for what is wrong with a child. -/
theorem decides_interleave {thread : UInt64} {finish : α}
    {chart : SpanId → Except Fault (Chart α)} {P : SpanId → Prop} {since : α} {ids : List SpanId}
    (hregister : ∀ c ∈ ids, ∃ s, register[c]? = some s ∧ s.id = c)
    (hchart : ∀ c ∈ ids, Decides (chart c) (P c) fun _ => True) :
    Decides (interleave register thread finish chart since ids)
      (IsNumber since ∧ ∀ c ∈ ids, P c ∧ ∀ s, register[c]? = some s → IsNumber s.finish)
      fun parts => parts ≠ [] := by
  induction ids generalizing since with
  | nil =>
    rw [interleave]
    refine (decides_idle since finish thread).bind fun idle _ => ?_
    exact decides_ok (by simp) (List.cons_ne_nil _ _)
  | cons c ids ih =>
    obtain ⟨child, hchild, rfl⟩ := hregister c List.mem_cons_self
    have hrest : Decides (interleave register thread finish chart child.finish ids) _ _ :=
      ih (fun d hd => hregister d (List.mem_cons_of_mem _ hd))
        fun d hd => hchart d (List.mem_cons_of_mem _ hd)
    rw [interleave, hchild, List.forall_mem_cons]
    refine (decides_idle since child.start thread).bind fun idle _ => ?_
    refine Decides.congr ((hchart child.id List.mem_cons_self).bind fun part _ =>
      hrest.bind fun parts _ => decides_ok trivial (List.cons_ne_nil _ _)) ?_
    -- the end of this child is where the rest starts
    simp only [hchild, Option.some.injEq, forall_eq', and_true, and_assoc]

/-! ## Spans -/

/-- The times of a span that a chart starts or ends at are numbers: both of a span without children;
    of one with children that is no join its start, and the ends of its children. -/
def Timed (register : Register α) (children : Children) (s : Span α) : Prop :=
  (children.of s.id = [] → IsNumber s.start ∧ IsNumber s.finish) ∧
    (children.of s.id ≠ [] → s.isJoin = false →
      IsNumber s.start ∧ ∀ c ∈ children.of s.id, ∀ t, register[c]? = some t → IsNumber t.finish)

/-- **A span is charted** if all that descends from it is timed, and is disordered otherwise.  Lines
    of descent have to end within the levels there are, and registered spans may not be reversed;
    both is what the checks see to. -/
theorem decides_ofSpanWithin {levels : Nat} {id : SpanId}
    (hend : children.generation levels id = [])
    (hregister : ∀ x ∈ children.descent levels id,
      ∃ s, register[x]? = some s ∧ s.id = x ∧ ¬s.finish < s.start) :
    Decides (ofSpanWithin register children levels id)
      (∀ x ∈ children.descent levels id, ∀ s, register[x]? = some s → Timed register children s)
      fun _ => True := by
  induction levels generalizing id with
  | zero => exact absurd hend (List.cons_ne_nil _ _)
  | succ levels ih =>
    obtain ⟨span, hspan, rfl, hforwards⟩ := hregister id (Children.mem_descent_self ..)
    have hchart := fun c hc => ih (Children.generation_succ_eq_nil_iff.1 hend c hc)
      fun x hx => hregister x (Children.mem_descent_of_child hc hx)
    have hchildren : ∀ c ∈ children.of span.id, ∃ s, register[c]? = some s ∧ s.id = c := by
      intro c hc
      cases levels with
      | zero =>
        exact absurd (Children.generation_succ_eq_nil_iff.1 hend c hc) (List.cons_ne_nil _ _)
      | succ levels =>
        obtain ⟨s, hs, hid, _⟩ := hregister c
          (Children.mem_descent_of_child hc (Children.mem_descent_self ..))
        exact ⟨s, hs, hid⟩
    -- all that descends from the span: itself, and all that descends from its children
    have hdescent : (∀ x ∈ children.descent (levels + 1) span.id, ∀ s, register[x]? = some s →
          Timed register children s) ↔
        Timed register children span ∧ ∀ c ∈ children.of span.id, ∀ x ∈ children.descent levels c,
          ∀ s, register[x]? = some s → Timed register children s := by
      simp only [Children.descent, List.forall_mem_cons, List.mem_flatMap, hspan, Option.some.injEq,
        forall_eq']
      grind
    refine Decides.congr ?_ hdescent.symm
    by_cases hof : children.of span.id = []
    · rw [ofSpanWithin_of_alone hspan hof]
      refine Decides.congr ((decides_task _ _ _ _).map fun _ _ => trivial) ?_
      rw [Scalar.le_iff_of_not_lt hforwards, Timed, hof]
      simp
    · cases hjoin : span.isJoin with
      | true =>
        rw [ofSpanWithin_of_join hspan hof hjoin]
        refine Decides.congr ((decides_mapM hchart).bind fun parts hparts =>
          decides_group? _ (List.ne_nil_of_length_pos ?_)) ?_
        · rw [hparts]
          exact List.length_pos_of_ne_nil hof
        · simp [Timed, hof, hjoin]
      | false =>
        rw [ofSpanWithin_of_turns hspan hof hjoin]
        refine Decides.congr ((decides_interleave hchildren hchart).bind fun parts hparts =>
          decides_group? _ hparts) ?_
        rw [Timed]
        simp only [hjoin]
        grind

end SpanChart.Chart
