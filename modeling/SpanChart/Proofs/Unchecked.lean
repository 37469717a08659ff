/-
  UNCHECKED — charting a lineage that nobody has looked through.

  The checks see to it that a trace is a tree whose spans are all registered.  Charting does not
  rely on that.  It takes any lineage: spans may be listed under several parents or several times
  under one, and need not be registered.  Only that no line of descent goes on for ever has to be
  known.  Then charting comes to an end, and what it comes to is settled line by line:

  1. `ofSpanWithin_of_le` — the levels there are will do, and more would change nothing.

  2. `fault?_ofSpanWithin` — in a register of spans that are not reversed, the fault of a chart is
     what is wrong at the end of the first line, depth first, that ends at nobody (`faultAt`).  The
     induction is on the levels, and it needs to know who lists a span, because a missing one is
     reported in one of two ways: a sequence looks its parts up before it has them charted, for the
     idle time before them, and nobody else does.

  3. `isLeast_of_ofSpan_eq_error` — the lines are listed in order (`pairwise_linesWithin`), so that
     line is the least of all that end at nobody.  The one to its parent is less, which is why this
     one is registered.
-/
import SpanChart.Proofs.Acceptance
import SpanChart.Proofs.Asking
import SpanChart.Proofs.Charting
import SpanChart.Proofs.Lines

namespace SpanChart

open Scalar (IsNumber Ordered larger)

/-- Spans are registered by their own ids, and none of them is reversed. -/
structure Register.Sound {α : Type} [Scalar α] (register : Register α) : Prop where
  own : ∀ {id : SpanId} {s : Span α}, register[id]? = some s → s.id = id
  ordered : ∀ {id : SpanId} {s : Span α}, register[id]? = some s → s.start ≤ s.finish

theorem Register.sound_of_toList {α : Type} [Scalar α] {register : Register α}
    (h : ∀ p ∈ register.toList, p.2.id = p.1 ∧ p.2.start ≤ p.2.finish) : register.Sound where
  own hs := (h _ (Std.TreeMap.mem_toList_iff_getElem?_eq_some.2 hs)).1
  ordered hs := (h _ (Std.TreeMap.mem_toList_iff_getElem?_eq_some.2 hs)).2

namespace Chart

/-! ## Lines that end at nobody -/

section Missing

variable {α : Type} {register : Register α} {children : Children}

/-- What is reported of a missing span: a sequence looks its parts up by itself, and everything
    else leaves that to the part. -/
def missing : Option (Span α) → SpanId → Fault
  | some lister, id => if lister.isJoin then .missingSpan id else .missingPart id
  | none, id => .missingSpan id

/-- What is wrong at the end of a line, if anything is, that starts at a span which is listed by
    another one or by nobody. -/
def faultAt (register : Register α) (children : Children) :
    Option (Span α) → List Nat → SpanId → Option Fault
  | lister, [], id => if id ∈ register then none else some (missing lister id)
  | _, i :: path, id => (children.of id)[i]?.bind (faultAt register children register[id]? path)

/-- The lines that end at a span which is not registered. -/
def missingLines (register : Register α) (children : Children) (id : SpanId) : Set (List Nat) :=
  {path | ∃ x, children.follow path id = some x ∧ x ∉ register}

/-- Something is wrong at the end of a line exactly if it ends at nobody. -/
theorem exists_faultAt_iff {lister : Option (Span α)} {path : List Nat} {id : SpanId} :
    (∃ fault, faultAt register children lister path id = some fault) ↔
      path ∈ missingLines register children id := by
  induction path generalizing lister id with
  | nil =>
    rw [faultAt]
    by_cases hid : id ∈ register
    · simp [missingLines, Children.follow, hid]
    · simp [missingLines, Children.follow, hid]
  | cons i path ih =>
    rw [faultAt]
    show _ ↔ ∃ x, (children.of id)[i]?.bind (children.follow path) = some x ∧ x ∉ register
    cases (children.of id)[i]? with
    | none => simp
    | some c => exact ih

/-- What is wrong at the end of a line is that the span there is missing, from where the span before
    it on the line looks for it. -/
theorem faultAt_eq_some {lister : Option (Span α)} {path : List Nat} {id : SpanId} {fault : Fault}
    (h : faultAt register children lister path id = some fault) :
    ∃ x, children.follow path id = some x ∧
      (path = [] ∧ fault = missing lister x ∨
        ∃ above i p, path = above ++ [i] ∧ children.follow above id = some p ∧
          fault = missing register[p]? x) := by
  induction path generalizing lister id with
  | nil =>
    rw [faultAt] at h
    by_cases hid : id ∈ register
    · rw [if_pos hid] at h
      cases h
    · rw [if_neg hid] at h
      exact ⟨id, rfl, .inl ⟨rfl, (Option.some.inj h).symm⟩⟩
  | cons i path ih =>
    obtain ⟨c, hi, h⟩ := Option.bind_eq_some_iff.1 h
    have hfollow : ∀ below, children.follow (i :: below) id = children.follow below c := by
      intro below
      rw [Children.follow, hi]
      rfl
    obtain ⟨x, hx, ⟨rfl, hfault⟩ | ⟨above, j, p, rfl, hp, hfault⟩⟩ := ih h
    · exact ⟨x, (hfollow []).trans hx, .inr ⟨[], i, id, rfl, rfl, hfault⟩⟩
    · exact ⟨x, (hfollow _).trans hx,
        .inr ⟨i :: above, j, p, rfl, (hfollow above).trans hp, hfault⟩⟩

/-- All lines that end at nobody are among those that are charted. -/
theorem mem_linesWithin_of_mem_missingLines {levels : Nat} {id : SpanId}
    (hend : children.generation levels id = []) {path : List Nat}
    (h : path ∈ missingLines register children id) : path ∈ children.linesWithin levels id := by
  obtain ⟨x, hx, -⟩ := h
  have hline : path ∈ children.linesFrom id := Option.isSome_iff_exists.2 ⟨x, hx⟩
  exact Children.mem_linesWithin.2 ⟨hline, Children.shallow_iff.2 hend path hline⟩

theorem findSome?_congr {β γ : Type} {f g : β → Option γ} {l : List β} (h : ∀ b ∈ l, f b = g b) :
    l.findSome? f = l.findSome? g := by
  show l.findSome? (id ∘ f) = l.findSome? (id ∘ g)
  rw [← List.findSome?_map, ← List.findSome?_map, List.map_congr_left h]

theorem findSome?_flatMap {β γ δ : Type} {f : γ → Option δ} {g : β → List γ} {l : List β} :
    (l.flatMap g).findSome? f = l.findSome? fun b => (g b).findSome? f := by
  rw [← List.head?_filterMap, List.filterMap_flatMap, List.head?_flatMap]
  simp only [List.head?_filterMap]

/-- The lines from a span are the span alone and those that go on from its children, which it
    lists. -/
theorem findSome?_faultAt {levels : Nat} {id : SpanId} (lister : Option (Span α)) :
    (children.linesWithin (levels + 1) id).findSome? (faultAt register children lister · id) =
      if id ∈ register then
        (children.of id).findSome? fun c =>
          (children.linesWithin levels c).findSome? (faultAt register children register[id]? · c)
      else some (missing lister id) := by
  rw [Children.linesWithin, List.findSome?_cons, faultAt]
  by_cases hid : id ∈ register
  · rw [if_pos hid, if_pos hid]
    show List.findSome? _ _ = _
    conv_rhs => rw [← List.zipIdx_map_fst 0 (children.of id), List.findSome?_map]
    rw [findSome?_flatMap]
    refine findSome?_congr fun c hc => ?_
    rw [List.findSome?_map]
    refine findSome?_congr fun path _ => ?_
    show (children.of id)[c.2]?.bind (faultAt register children register[id]? path) = _
    rw [List.mem_zipIdx_iff_getElem?.1 hc]
    rfl
  · rw [if_neg hid, if_neg hid]

/-- In a list that is in order what is found is least. -/
theorem isLeast_of_findSome?_eq_some {f : List Nat → Option Fault} {lines : List (List Nat)}
    {fault : Fault} (hsorted : lines.Pairwise (· < ·)) (h : lines.findSome? f = some fault) :
    ∃ path, f path = some fault ∧ IsLeast {p | p ∈ lines ∧ ∃ e, f p = some e} path := by
  obtain ⟨earlier, path, later, rfl, hpath, hearlier⟩ := List.findSome?_eq_some_iff.1 h
  refine ⟨path, hpath, ⟨List.mem_append_right _ List.mem_cons_self, fault, hpath⟩, ?_⟩
  rintro other ⟨hmem, e, hother⟩
  rcases List.mem_append.1 hmem with hmem | hmem
  · rw [hearlier other hmem] at hother
    cases hother
  · rcases List.mem_cons.1 hmem with rfl | hmem
    · exact le_refl _
    · have hlater := (List.pairwise_cons.1 (List.pairwise_append.1 hsorted).2.1).1
      exact le_of_lt (hlater other hmem)

/-- The lines at whose ends something is wrong are those that end at nobody, none of which is left
    out. -/
theorem setOf_faultAt_eq {levels : Nat} {id : SpanId} (hend : children.generation levels id = [])
    (lister : Option (Span α)) :
    {path | path ∈ children.linesWithin levels id ∧
        ∃ fault, faultAt register children lister path id = some fault} =
      missingLines register children id := by
  ext path
  show _ ∧ _ ↔ _
  rw [exists_faultAt_iff]
  exact ⟨And.right, fun h => ⟨mem_linesWithin_of_mem_missingLines hend h, h⟩⟩

end Missing

/-! ## More levels than needed -/

variable {α : Type} [Scalar α] {register : Register α} {children : Children}

/-- Only charts of the children are asked for. -/
theorem interleave_congr {thread : UInt64} {finish since : α}
    {chart chart' : SpanId → Except Fault (Chart α)} {ids : List SpanId}
    (hown : ∀ {id : SpanId} {s : Span α}, register[id]? = some s → s.id = id)
    (h : ∀ c ∈ ids, chart c = chart' c) :
    interleave register thread finish chart since ids =
      interleave register thread finish chart' since ids := by
  induction ids generalizing since with
  | nil => rfl
  | cons c ids ih =>
    rw [interleave, interleave]
    cases hchild : register[c]? with
    | none => rfl
    | some child =>
      obtain rfl := hown hchild
      dsimp only
      rw [h child.id List.mem_cons_self, ih fun d hd => h d (List.mem_cons_of_mem _ hd)]

theorem mapM_congr {β : Type} {f g : SpanId → Except Fault β} {ids : List SpanId}
    (h : ∀ c ∈ ids, f c = g c) : ids.mapM f = ids.mapM g := by
  induction ids with
  | nil => rfl
  | cons c ids ih =>
    rw [List.mapM_cons, List.mapM_cons, h c List.mem_cons_self,
      ih fun d hd => h d (List.mem_cons_of_mem _ hd)]

/-- Levels that no line of descent gets to are not missed. -/
theorem ofSpanWithin_of_le (hown : ∀ {id : SpanId} {s : Span α}, register[id]? = some s → s.id = id)
    {levels more : Nat} {id : SpanId} (hend : children.generation levels id = [])
    (hle : levels ≤ more) :
    ofSpanWithin register children more id = ofSpanWithin register children levels id := by
  induction levels generalizing more id with
  | zero => exact absurd hend (List.cons_ne_nil _ _)
  | succ levels ih =>
    obtain ⟨more, rfl⟩ := Nat.exists_eq_add_of_lt hle
    -- lines from children are one span shorter, and each case asks for nothing but their charts
    have hcharts : ∀ c ∈ children.of id, ofSpanWithin register children (levels + more) c =
        ofSpanWithin register children levels c := fun c hc =>
      ih (Children.generation_succ_eq_nil_iff.1 hend c hc) (Nat.le_add_right levels more)
    cases hspan : register[id]? with
    | none => rw [ofSpanWithin_of_none hspan, ofSpanWithin_of_none hspan]
    | some span =>
      by_cases hof : children.of id = []
      · rw [ofSpanWithin_of_alone hspan hof, ofSpanWithin_of_alone hspan hof]
      · cases hjoin : span.isJoin with
        | true =>
          rw [ofSpanWithin_of_join hspan hof hjoin, ofSpanWithin_of_join hspan hof hjoin,
            mapM_congr hcharts]
        | false =>
          rw [ofSpanWithin_of_turns hspan hof hjoin, ofSpanWithin_of_turns hspan hof hjoin,
            interleave_congr hown hcharts]

/-! ## Faults -/

section Faults

variable {β γ : Type}

/-- The fault that an attempt ends with, if it does. -/
def fault? : Except Fault β → Option Fault
  | .ok _ => none
  | .error fault => some fault

theorem fault?_eq_none_iff {attempt : Except Fault β} :
    fault? attempt = none ↔ ∃ b, attempt = .ok b := by
  cases attempt with
  | error fault => simp [fault?]
  | ok b => simp [fault?]

theorem fault?_eq_some_iff {attempt : Except Fault β} {fault : Fault} :
    fault? attempt = some fault ↔ attempt = .error fault := by
  cases attempt with
  | error fault => simp [fault?]
  | ok b => simp [fault?]

/-- An attempt that goes on ends with its own fault or with that of what comes after. -/
theorem fault?_bind {attempt : Except Fault β} {next : β → Except Fault γ} {later : Option Fault}
    (h : ∀ b, attempt = .ok b → fault? (next b) = later) :
    fault? (attempt >>= next) = (fault? attempt).or later := by
  cases attempt with
  | error fault => rfl
  | ok b => exact h b rfl

/-- What comes after an attempt and cannot fail changes nothing. -/
theorem fault?_bind_last {attempt : Except Fault β} {next : β → Except Fault γ}
    (h : ∀ b, attempt = .ok b → fault? (next b) = none) :
    fault? (attempt >>= next) = fault? attempt :=
  (fault?_bind h).trans Option.or_none

/-- The first attempt that fails is the last that is made. -/
theorem fault?_mapM {f : SpanId → Except Fault β} {ids : List SpanId} :
    fault? (ids.mapM f) = ids.findSome? fun c => fault? (f c) := by
  induction ids with
  | nil => rfl
  | cons c ids ih =>
    have hrest : ∀ b, fault? (ids.mapM f >>= fun bs => pure (b :: bs)) =
        ids.findSome? fun c => fault? (f c) :=
      fun b => (fault?_bind_last fun bs _ => rfl).trans ih
    rw [List.mapM_cons, fault?_bind fun b _ => hrest b, List.findSome?_cons]
    cases fault? (f c) <;> rfl

end Faults

theorem fault?_group? (flow : Flow) {parts : List (Chart α)} (h : parts ≠ []) :
    fault? (group? flow parts) = none := by
  obtain ⟨c, hc, -⟩ := (decides_group? flow h).1 trivial
  rw [hc]
  rfl

theorem ne_nil_of_mapM {f : SpanId → Except Fault (Chart α)} {ids : List SpanId}
    {parts : List (Chart α)} (hids : ids ≠ []) (h : ids.mapM f = .ok parts) : parts ≠ [] := by
  have hlength := (Layout.mapM_eq_ok_iff.1 h).length_eq
  exact List.ne_nil_of_length_pos (hlength ▸ List.length_pos_of_ne_nil hids)

theorem ne_nil_of_interleave {thread : UInt64} {finish since : α}
    {chart : SpanId → Except Fault (Chart α)} {ids : List SpanId} {parts : List (Chart α)}
    (h : interleave register thread finish chart since ids = .ok parts) : parts ≠ [] := by
  cases ids with
  | nil =>
    rw [interleave] at h
    obtain ⟨idle, -, h⟩ := Layout.bind_eq_ok_iff.1 h
    cases h
    exact List.cons_ne_nil _ _
  | cons c ids =>
    rw [interleave] at h
    cases hchild : register[c]? with
    | none => rw [hchild] at h; cases h
    | some child =>
      rw [hchild] at h
      obtain ⟨idle, -, h⟩ := Layout.bind_eq_ok_iff.1 h
      obtain ⟨part, -, h⟩ := Layout.bind_eq_ok_iff.1 h
      obtain ⟨rest, -, h⟩ := Layout.bind_eq_ok_iff.1 h
      cases h
      exact List.cons_ne_nil _ _

/-- In a register of spans that are not reversed all that can go wrong with a sequence is that a
    child is missing, or what is wrong with the chart of a child. -/
theorem fault?_interleave [Ordered α] {thread : UInt64} {finish since : α}
    {chart : SpanId → Except Fault (Chart α)} {ids : List SpanId}
    (hregister : register.Sound)
    (hsince : IsNumber since) :
    fault? (interleave register thread finish chart since ids) =
      ids.findSome? fun c => if c ∈ register then fault? (chart c) else some (.missingPart c) := by
  induction ids generalizing since with
  | nil =>
    rw [interleave, Task.of?_of_le (Scalar.le_larger_iff.2 hsince)]
    rfl
  | cons c ids ih =>
    rw [interleave, List.findSome?_cons]
    by_cases hc : c ∈ register
    · have hchild := Std.TreeMap.getElem?_eq_some_getElem hc
      have hrest := ih (Ordered.isNumber_of_le (hregister.ordered hchild)).2
      -- a child that is registered under its id ends at a number, where idle time goes on from
      rw [if_pos hc, hchild]
      dsimp only
      rw [Task.of?_of_le (Scalar.le_larger_iff.2 hsince), hregister.own hchild]
      show fault? (chart c >>= fun part =>
        interleave register thread finish chart register[c].finish ids >>= _) = _
      rw [fault?_bind fun part _ => (fault?_bind_last fun parts _ => rfl).trans hrest]
      cases fault? (chart c) <;> rfl
    · rw [if_neg hc, Std.TreeMap.getElem?_eq_none hc]
      rfl

/-! ## The first line that ends badly -/

/-- A span that is asked for as one of a join's parts is missing like any. -/
theorem ofSpanWithin_of_not_mem {levels : Nat} {id : SpanId}
    (hend : children.generation levels id = []) (hid : id ∉ register) :
    ofSpanWithin register children levels id = .error (.missingSpan id) := by
  cases levels with
  | zero => exact absurd hend (List.cons_ne_nil _ _)
  | succ levels => exact ofSpanWithin_of_none (Std.TreeMap.getElem?_eq_none hid)

/-- **Charting is done line by line**, and ends with what is wrong at the first line that ends
    badly. -/
theorem fault?_ofSpanWithin [Ordered α] (hregister : register.Sound) {levels : Nat} {id : SpanId}
    (hend : children.generation levels id = []) (lister : Option (Span α)) :
    (if id ∈ register then fault? (ofSpanWithin register children levels id)
      else some (missing lister id)) =
      (children.linesWithin levels id).findSome? (faultAt register children lister · id) := by
  induction levels generalizing id lister with
  | zero => exact absurd hend (List.cons_ne_nil _ _)
  | succ levels ih =>
    rw [findSome?_faultAt]
    by_cases hid : id ∈ register
    · obtain ⟨span, hspan⟩ : ∃ span, register[id]? = some span :=
        ⟨_, Std.TreeMap.getElem?_eq_some_getElem hid⟩
      have hordered := hregister.ordered hspan
      have hends := Children.generation_succ_eq_nil_iff.1 hend
      have hcharts := findSome?_congr fun c hc => ih (hends c hc) (some span)
      rw [if_pos hid, if_pos hid, hspan, ← hcharts]
      by_cases hof : children.of id = []
      · rw [ofSpanWithin_of_alone hspan hof, Task.of?_of_le hordered, hof]
        rfl
      · cases hjoin : span.isJoin with
        | true =>
          rw [ofSpanWithin_of_join hspan hof hjoin,
            fault?_bind_last fun parts h => fault?_group? _ (ne_nil_of_mapM hof h), fault?_mapM]
          -- a join asks for all children alike: one that is missing is found so by its own chart
          refine findSome?_congr fun c hc => ?_
          by_cases hmem : c ∈ register
          · rw [if_pos hmem]
          · rw [if_neg hmem, ofSpanWithin_of_not_mem (hends c hc) hmem, missing, if_pos hjoin]
            rfl
        | false =>
          rw [ofSpanWithin_of_turns hspan hof hjoin,
            fault?_bind_last fun parts h => fault?_group? _ (ne_nil_of_interleave h),
            fault?_interleave hregister (Ordered.isNumber_of_le hordered).1]
          -- a sequence looks its children up itself
          simp only [missing, hjoin, Bool.false_eq_true, if_false]
    · rw [if_neg hid, if_neg hid]

/-! ## Charts of unchecked spans -/

variable {root : SpanId}

/-- **What is charted on the way** to a chart is the span at the end of each line, depth first. -/
theorem exists_asked_of_ofSpan_eq_ok (hend : children.generation (children.size + 1) root = [])
    (hregister : register.Sound) {chart : Chart α}
    (h : ofSpan register children root = .ok chart) :
    ∃ (asked : List SpanId) (lines : List (List Nat)),
      (askOfSpan register children root).run [] = .ok (chart, asked) ∧
      lines.Pairwise (· < ·) ∧ (∀ path, path ∈ lines ↔ path ∈ children.linesFrom root) ∧
      asked.map some = lines.map (children.follow · root) ∧
      ∀ limit, children.Shallow limit root → children.lines limit root = .ok asked.length := by
  refine ⟨children.descent (children.size + 1) root, children.linesWithin (children.size + 1) root,
    ?_, Children.pairwise_linesWithin _ _, fun path => ?_,
    (Children.map_follow_linesWithin _ _).symm, fun limit hlimit => ?_⟩
  · rw [askOfSpan_run hregister.own, h]
    rfl
  · rw [Children.mem_linesWithin]
    exact ⟨And.left, fun h => ⟨h, Children.shallow_iff.2 hend path h⟩⟩
  · -- both are the number of lines
    refine Children.lines_eq_ok_iff.2 ⟨Children.shallow_iff.1 hlimit, ?_⟩
    rw [← (Children.linesFrom_of_shallow hlimit).2,
      (Children.linesFrom_of_shallow (Children.shallow_iff.2 hend)).2]

variable [Ordered α]

/-- The root is listed by nobody. -/
theorem fault?_ofSpan (hend : children.generation (children.size + 1) root = [])
    (hregister : register.Sound) :
    fault? (ofSpan register children root) =
      (children.linesWithin (children.size + 1) root).findSome?
        (faultAt register children none · root) := by
  rw [← fault?_ofSpanWithin hregister hend none, ofSpan]
  by_cases hroot : root ∈ register
  · rw [if_pos hroot]
  · rw [if_neg hroot, ofSpanWithin_of_not_mem hend hroot]
    rfl

/-- Nothing is wrong where nobody is missed. -/
theorem exists_ofSpan_iff (hend : children.generation (children.size + 1) root = [])
    (hregister : register.Sound) :
    (∃ chart, ofSpan register children root = .ok chart) ↔
      ∀ path x, children.follow path root = some x → x ∈ register := by
  rw [← fault?_eq_none_iff, fault?_ofSpan hend hregister, List.findSome?_eq_none_iff]
  constructor
  · intro h path x hx
    by_contra hmem
    have hmissing : path ∈ missingLines register children root := ⟨x, hx, hmem⟩
    rw [← setOf_faultAt_eq hend none] at hmissing
    obtain ⟨hline, fault, hpath⟩ := hmissing
    rw [h path hline] at hpath
    cases hpath
  · intro h path _
    by_contra hne
    obtain ⟨x, hx, hmem⟩ := exists_faultAt_iff.1 (Option.ne_none_iff_exists'.1 hne)
    exact hmem (h path x hx)

/-- **The fault is at the first line**, depth first, that ends at nobody.  A sequence reports it as
    a part it has not found, and among the parts of a join and at the root it is a span like any. -/
theorem isLeast_of_ofSpan_eq_error (hend : children.generation (children.size + 1) root = [])
    (hregister : register.Sound) {fault : Fault}
    (h : ofSpan register children root = .error fault) :
    ∃ path x, IsLeast (missingLines register children root) path ∧
      children.follow path root = some x ∧
      (path = [] ∧ fault = .missingSpan x ∨
        ∃ above i p s, path = above ++ [i] ∧ children.follow above root = some p ∧
          register[p]? = some s ∧
          fault = if s.isJoin then .missingSpan x else .missingPart x) := by
  rw [← fault?_eq_some_iff, fault?_ofSpan hend hregister] at h
  obtain ⟨path, hpath, hleast⟩ :=
    isLeast_of_findSome?_eq_some (Children.pairwise_linesWithin _ _) h
  rw [setOf_faultAt_eq hend] at hleast
  obtain ⟨x, hx, hroot | ⟨above, i, p, rfl, hp, hlisted⟩⟩ := faultAt_eq_some hpath
  · exact ⟨path, x, hleast, hx, .inl hroot⟩
  · -- the line to the parent is shorter, so the parent is registered
    have hmem : p ∈ register := by
      by_contra hmem
      have hshorter : above < above ++ [i] := by
        have := List.Lex.append_left (· < ·) (List.Lex.nil (a := i) (l := [])) above
        rwa [List.append_nil] at this
      exact absurd (hleast.2 ⟨p, hp, hmem⟩) (not_le.2 hshorter)
    have hs := Std.TreeMap.getElem?_eq_some_getElem hmem
    rw [hs] at hlisted
    exact ⟨_, x, hleast, hx, .inr ⟨above, i, p, _, rfl, hp, hs, hlisted⟩⟩

/-- **Charting a lineage that nobody has looked through** comes to an end where all lines do, within
    the levels that there are.  It comes to a chart if all spans on the lines are registered, and
    then it has charted the span at the end of each line once, depth first, which are as many as a
    survey counts that goes deep enough.  Otherwise the first span is missing, depth first, that is
    not registered; and how, depends on who lists it. -/
theorem ofSpan_of_not_endless (hend : ¬children.Endless root) (hregister : register.Sound) :
    (∀ levels, children.size < levels →
      ofSpanWithin register children levels root = ofSpan register children root) ∧
    ((∃ chart, ofSpan register children root = .ok chart) ↔
      ∀ path x, children.follow path root = some x → x ∈ register) ∧
    Prod.fst <$> (askOfSpan register children root).run [] = ofSpan register children root ∧
    (∀ chart, ofSpan register children root = .ok chart →
      ∃ (asked : List SpanId) (lines : List (List Nat)),
      (askOfSpan register children root).run [] = .ok (chart, asked) ∧
      lines.Pairwise (· < ·) ∧ (∀ path, path ∈ lines ↔ path ∈ children.linesFrom root) ∧
      asked.map some = lines.map (children.follow · root) ∧
      ∀ limit, children.Shallow limit root → children.lines limit root = .ok asked.length) ∧
    (∀ fault, ofSpan register children root = .error fault → ∃ path x,
      IsLeast (missingLines register children root) path ∧ children.follow path root = some x ∧
      (path = [] ∧ fault = .missingSpan x ∨
        ∃ above i p s, path = above ++ [i] ∧ children.follow above root = some p ∧
          register[p]? = some s ∧
          fault = if s.isJoin then .missingSpan x else .missingPart x)) := by
  obtain ⟨n, hn⟩ := Children.not_endless_iff.1 hend
  have hsize := Children.generation_size hn
  refine ⟨fun levels h => ofSpanWithin_of_le hregister.own hsize h,
    exists_ofSpan_iff hsize hregister, ?_,
    fun chart h => exists_asked_of_ofSpan_eq_ok hsize hregister h,
    fun fault h => isLeast_of_ofSpan_eq_error hsize hregister h⟩
  rw [askOfSpan_run hregister.own]
  cases ofSpan register children root <;> rfl

/-- A sequence of three, of which the first and the last are the same join, of one span twice. -/
def sharedParts : Children := ((∅ : Children).insert 1 [2, 3, 2]).insert 2 [4, 4]

/-- The spans that are listed there, and first the one between the joins. -/
def sharedSpans : Trace Float :=
  [⟨3, 1, 4, 5, 0, ""⟩, ⟨1, 0, 0, 10, 0, ""⟩, ⟨2, 1, 1, 4, 0, "join"⟩, ⟨4, 2, 1, 4, 1, ""⟩]

theorem ofSpan_sharedSpans :
    ¬sharedParts.Endless 1 ∧
      (Register.ofTrace sharedSpans).Sound ∧ (Register.ofTrace sharedSpans.tail).Sound ∧
      (∃ chart asked, (askOfSpan (Register.ofTrace sharedSpans) sharedParts 1).run [] =
        .ok (chart, asked) ∧ sharedParts.lines 3 1 = .ok asked.length) ∧
      ofSpan (Register.ofTrace sharedSpans.tail) sharedParts 1 = .error (.missingPart 3) ∧
      ∃ path, IsLeast (missingLines (Register.ofTrace sharedSpans.tail) sharedParts 1) path ∧
        sharedParts.follow path 1 = some 3 := by
  have hends : sharedParts.generation 3 1 = [] := by decide +kernel
  have hend : ¬sharedParts.Endless 1 := Children.not_endless_iff.2 ⟨3, hends⟩
  have hall : (Register.ofTrace sharedSpans).Sound :=
    Register.sound_of_toList (by decide +kernel)
  have hrest : (Register.ofTrace sharedSpans.tail).Sound :=
    Register.sound_of_toList (by decide +kernel)
  obtain ⟨chart, hchart⟩ : ∃ chart, ofSpan (Register.ofTrace sharedSpans) sharedParts 1 =
      .ok chart := fault?_eq_none_iff.1 (by decide +kernel)
  have herror : ofSpan (Register.ofTrace sharedSpans.tail) sharedParts 1 =
      .error (.missingPart 3) := fault?_eq_some_iff.1 (by decide +kernel)
  obtain ⟨-, -, -, hasks, -⟩ := ofSpan_of_not_endless hend hall
  obtain ⟨asked, -, hasked, -, -, -, hlines⟩ := hasks chart hchart
  obtain ⟨-, -, -, -, hmisses⟩ := ofSpan_of_not_endless hend hrest
  obtain ⟨path, x, hleast, hx, ⟨-, hfault⟩ | ⟨above, i, p, s, -, -, -, hfault⟩⟩ :=
    hmisses _ herror
  · cases hfault
  · refine ⟨hend, hall, hrest, ⟨chart, asked, hasked, hlines 3 (Children.shallow_iff.2 hends)⟩,
      herror, path, hleast, ?_⟩
    split at hfault
    · cases hfault
    · cases hfault
      exact hx

end Chart

end SpanChart
