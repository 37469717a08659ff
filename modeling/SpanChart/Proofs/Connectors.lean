/-
  CONNECTORS — through which of its tasks a chart is entered and left.

  The entry points of a chart are found by going down through every part of what ran in parallel
  and through the first part only of a sequence; for the exit points it is the last part.  Here
  the same is said of leaves in two other ways:

  * **by the path** — `through gate` accepts a path that takes, at every chart on its way, only
    positions that the chart has its gate at.  `enteredAt` and `leftAt` are its two instances, and
    the leaves that they accept are those the points belong to (`entries_eq`, `exits_eq`);
  * **by the order** — these are the leaves that no leaf precedes, and those that precede none
    (`enteredAt_iff`, `leftAt_iff`).  Both are one induction, `through_iff_unrelated`: a gate is
    closed at a position exactly if there is another part all of whose leaves come before, or
    after, those of the part there.
-/
import SpanChart.Chart.Links
import SpanChart.Proofs.Precedence

namespace SpanChart.Chart

variable {α : Type} [Scalar α]

/-! ## Gates -/

/-- Whether a path takes only positions that the gate lets pass. -/
def through (gate : Chart α → Nat → Bool) : List Nat → Chart α → Bool
  | [], _ => true
  | i :: path, c => gate c i && c.parts[i]?.any (through gate path)

/-- Whether a chart is entered through its part at `i`. -/
def entersBy (c : Chart α) (i : Nat) : Bool := c.flow? = some .parallel || i == 0

/-- Whether a chart is left through its part at `i`. -/
def leavesBy (c : Chart α) (i : Nat) : Bool :=
  c.flow? = some .parallel || i + 1 == c.parts.length

/-- Whether control flow enters a chart at the end of a path. -/
def enteredAt (path : List Nat) (c : Chart α) : Bool := through entersBy path c

/-- Whether control flow leaves a chart at the end of a path. -/
def leftAt (path : List Nat) (c : Chart α) : Bool := through leavesBy path c

/-- The leaves through which a chart is entered. -/
def entryLeaves (c : Chart α) : List (Leaf α) := c.leaves.filter fun l => c.enteredAt l.path

/-- The leaves through which a chart is left. -/
def exitLeaves (c : Chart α) : List (Leaf α) := c.leaves.filter fun l => c.leftAt l.path

theorem through_cons {gate : Chart α → Nat → Bool} {c d : Chart α} {i : Nat}
    (hd : c.parts[i]? = some d) (path : List Nat) :
    through gate (i :: path) c = (gate c i && through gate path d) := by
  rw [through, hd, Option.any_some]

theorem enteredAt_cons {c d : Chart α} {i : Nat} (hd : c.parts[i]? = some d) (path : List Nat) :
    c.enteredAt (i :: path) = (c.entersBy i && d.enteredAt path) :=
  through_cons hd path

/-- The points that a group's leaves have behind a gate, when `points` gives those of its parts:
    the points of the parts that the gate is open at. -/
theorem map_through_group (gate : Chart α → Nat → Bool) (point : Task α → Point α)
    (points : Chart α → List (Point α)) (flow : Flow) (corner : Point α) (first : Chart α)
    (rest : List (Chart α))
    (hpoints : ∀ d ∈ first :: rest,
      points d = (d.leaves.filter fun l => through gate l.path d).map fun l => point l.task) :
    ((group flow corner first rest).leaves.filter
        fun l => through gate l.path (group flow corner first rest)).map (fun l => point l.task) =
      (first :: rest).zipIdx.flatMap fun d =>
        if gate (group flow corner first rest) d.2 then points d.1 else [] := by
  rw [leaves_group, List.filter_flatMap, List.map_flatMap]
  refine List.flatMap_congr ?_
  rintro ⟨d, i⟩ hd
  have hpart : (group flow corner first rest).parts[i]? = some d :=
    List.mem_zipIdx_iff_getElem?.1 hd
  have hpath : ((fun l : Leaf α => through gate l.path (group flow corner first rest)) ∘
      Leaf.under i) =
      fun l => gate (group flow corner first rest) i && through gate l.path d :=
    funext fun l => through_cons hpart l.path
  rw [List.filter_map, hpath, List.map_map, hpoints d (List.mem_of_getElem? hpart)]
  cases gate (group flow corner first rest) i with
  | true => simp only [Bool.true_and]; rfl
  | false => simp

/-- Behind a gate that is open at every part are the points of all the parts. -/
theorem flatMap_of_open {gate : Nat → Bool} (points : Chart α → List (Point α))
    (cs : List (Chart α)) (hopen : ∀ i, gate i = true) :
    (cs.zipIdx.flatMap fun d => if gate d.2 then points d.1 else []) = cs.flatMap points := by
  simp only [hopen, if_true]
  conv_rhs => rw [← List.zipIdx_map_fst 0 cs, List.flatMap_map]

/-! ## The points of a chart -/

/-- The entry points of a chart are those of the leaves through which it is entered. -/
theorem entries_eq (c : Chart α) : c.entries = c.entryLeaves.map fun l => l.task.entry := by
  induction c using inductParts with
  | ofTask t => rfl
  | ofGroup flow corner first rest ih =>
    unfold entryLeaves enteredAt
    rw [map_through_group entersBy Task.entry entries flow corner first rest ih]
    cases flow with
    | parallel =>
      rw [flatMap_of_open entries _ (fun i => by simp [entersBy, flow?]), entries,
        entriesOf_eq_flatMap, List.flatMap_cons]
    | sequential =>
      -- the gate is open at the first part, and closed at all that follow
      have hrest : ∀ d ∈ rest.zipIdx 1,
          (if (group .sequential corner first rest).entersBy d.2
            then d.1.entries else []) = [] := by
        rintro ⟨d, i⟩ hd
        have := List.le_snd_of_mem_zipIdx hd
        exact if_neg (by simp [entersBy, flow?]; omega)
      rw [List.zipIdx_cons, List.flatMap_cons, List.flatMap_eq_nil_iff.2 hrest, List.append_nil,
        if_pos (by simp [entersBy]), entries]

/-- The exit points of a chart are those of the leaves through which it is left. -/
theorem exits_eq (c : Chart α) : c.exits = c.exitLeaves.map fun l => l.task.exit := by
  induction c using inductParts with
  | ofTask t => rfl
  | ofGroup flow corner first rest ih =>
    unfold exitLeaves leftAt
    rw [map_through_group leavesBy Task.exit exits flow corner first rest ih]
    cases flow with
    | parallel =>
      rw [flatMap_of_open exits _ (fun i => by simp [leavesBy, flow?]), exits,
        exitsOf_eq_flatMap, List.flatMap_cons]
    | sequential =>
      -- the gate is open at the last part, and closed at all before it
      obtain ⟨init, last, hparts⟩ : ∃ init last, first :: rest = init ++ [last] :=
        ⟨_, _, (List.dropLast_append_getLast (List.cons_ne_nil first rest)).symm⟩
      have hlen : rest.length = init.length := by
        simpa using congrArg List.length hparts
      have hinit : ∀ d ∈ init.zipIdx,
          (if (group .sequential corner first rest).leavesBy d.2 then d.1.exits else []) = [] := by
        rintro ⟨d, i⟩ hd
        have := List.snd_lt_of_mem_zipIdx hd
        exact if_neg (by simp [leavesBy, flow?, parts]; omega)
      rw [exits_sequential]
      simp only [hparts, List.getLast_append_singleton, List.zipIdx_append, List.flatMap_append,
        List.flatMap_eq_nil_iff.2 hinit, List.nil_append, List.zipIdx_singleton,
        List.flatMap_singleton]
      rw [if_pos (by simp [leavesBy, parts, hlen])]

/-! ## The order -/

/-- **The gate argument.**  Let a gate be closed at a position of a chart exactly if some part of
    the chart has all its leaves related to those of the part there.  Then the leaves that pass the
    gate are those that no leaf is related to. -/
theorem through_iff_unrelated {gate : Chart α → Nat → Bool}
    (rel : Chart α → List Nat → List Nat → Prop) (hnil : ∀ c q, ¬rel c q [])
    (hinside : ∀ c d i, c.parts[i]? = some d → ∀ q p, rel c (i :: q) (i :: p) ↔ rel d q p)
    (hopen : ∀ c i, gate c i = true → ∀ j e, c.parts[j]? = some e → j ≠ i →
      ∀ q p, ¬rel c (j :: q) (i :: p))
    (hclosed : ∀ c d i, c.parts[i]? = some d → gate c i = false →
      ∃ j e, c.parts[j]? = some e ∧ ∀ q p, rel c (j :: q) (i :: p))
    {c : Chart α} {l : Leaf α} (hl : l ∈ c.leaves) :
    through gate l.path c = true ↔ ∀ m ∈ c.leaves, ¬rel c m.path l.path := by
  induction c using inductParts generalizing l with
  | ofTask t =>
    obtain rfl := List.mem_singleton.1 hl
    exact ⟨fun _ m _ => hnil _ _, fun _ => rfl⟩
  | ofGroup flow corner first rest ih =>
    obtain ⟨i, d, hd, l, hl', rfl⟩ := mem_leaves_group.1 hl
    have hpart : (group flow corner first rest).parts[i]? = some d := hd
    have ih := ih d (List.mem_of_getElem? hd) hl'
    rw [Leaf.under, through_cons hpart, Bool.and_eq_true, ih]
    constructor
    -- open: a leaf in the same part is up to that part, and none in another is related
    · rintro ⟨hgate, hinner⟩ m hm
      obtain ⟨j, e, he, m, hm, rfl⟩ := mem_leaves_group.1 hm
      by_cases hji : j = i
      · subst hji
        obtain rfl : d = e := Option.some.inj (hd.symm.trans he)
        exact fun h => hinner m hm ((hinside _ d j hpart _ _).1 h)
      · exact hopen _ i hgate j e he hji _ _
    · intro hunrelated
      constructor
      -- were it closed, some part would have leaves, and all of them related
      · by_contra hgate
        obtain ⟨j, e, he, hrel⟩ := hclosed _ d i hpart (Bool.eq_false_of_not_eq_true hgate)
        obtain ⟨m, hm⟩ := List.exists_mem_of_ne_nil _ e.leaves_ne_nil
        exact hunrelated _ (mem_leaves_group.2 ⟨j, e, he, m, hm, rfl⟩) (hrel _ _)
      · intro m hm h
        exact hunrelated _ (mem_leaves_group.2 ⟨i, d, hd, m, hm, rfl⟩)
          ((hinside _ d i hpart _ _).2 h)

/-- A part where a chart is not entered has one before it. -/
theorem entersBy_eq_false {c : Chart α} {i : Nat} (h : c.entersBy i = false) {d : Chart α}
    (hd : c.parts[i]? = some d) : c.flow? = some .sequential ∧ 0 < i := by
  cases c with
  | task t => simp [parts] at hd
  | group flow corner first rest =>
    cases flow with
    | parallel => simp [entersBy, flow?] at h
    | sequential =>
      refine ⟨rfl, ?_⟩
      simp [entersBy, flow?] at h
      omega

/-- A part where a chart is not left has one after it. -/
theorem leavesBy_eq_false {c : Chart α} {i : Nat} (h : c.leavesBy i = false) {d : Chart α}
    (hd : c.parts[i]? = some d) : c.flow? = some .sequential ∧ i + 1 < c.parts.length := by
  have hi := (List.getElem?_eq_some_iff.1 hd).1
  cases c with
  | task t => simp [parts] at hd
  | group flow corner first rest =>
    cases flow with
    | parallel => simp [leavesBy, flow?] at h
    | sequential =>
      refine ⟨rfl, ?_⟩
      simp [leavesBy, flow?] at h
      omega

/-- A chart is entered through the leaves that no leaf precedes. -/
theorem enteredAt_iff {c : Chart α} {l : Leaf α} (hl : l ∈ c.leaves) :
    c.enteredAt l.path = true ↔ ∀ m ∈ c.leaves, ¬c.Precedes m.path l.path := by
  refine through_iff_unrelated (fun c q p => c.Precedes q p)
    (fun _ _ => not_parted_nil_right) (fun _ _ _ hd _ _ => parted_cons_self hd) ?_ ?_ hl
  · intro c i hgate j e he hji q p h
    rcases parted_cons.1 h with ⟨hflow, hlt⟩ | ⟨hji', -⟩
    · simp [entersBy, hflow] at hgate
      omega
    · exact hji hji'
  · intro c d i hd hgate
    obtain ⟨hflow, hi⟩ := entersBy_eq_false hgate hd
    have hlen := (List.getElem?_eq_some_iff.1 hd).1
    exact ⟨0, c.parts[0], List.getElem?_eq_getElem _, fun q p => parted_cons.2 (Or.inl ⟨hflow, hi⟩)⟩

/-- A chart is left through the leaves that precede no leaf. -/
theorem leftAt_iff {c : Chart α} {l : Leaf α} (hl : l ∈ c.leaves) :
    c.leftAt l.path = true ↔ ∀ m ∈ c.leaves, ¬c.Precedes l.path m.path := by
  refine through_iff_unrelated (fun c q p => c.Precedes p q)
    (fun _ _ => not_parted_nil_left) (fun _ _ _ hd _ _ => parted_cons_self hd) ?_ ?_ hl
  · intro c i hgate j e he hji q p h
    rcases parted_cons.1 h with ⟨hflow, hlt⟩ | ⟨hij, -⟩
    · have := (List.getElem?_eq_some_iff.1 he).1
      simp [leavesBy, hflow] at hgate
      omega
    · exact hji hij.symm
  · intro c d i hd hgate
    obtain ⟨hflow, hi⟩ := leavesBy_eq_false hgate hd
    exact ⟨i + 1, c.parts[i + 1], List.getElem?_eq_getElem hi,
      fun q p => parted_cons.2 (Or.inl ⟨hflow, Nat.lt_succ_self i⟩)⟩

end SpanChart.Chart
