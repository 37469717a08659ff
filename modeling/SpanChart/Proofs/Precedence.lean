/-
  PRECEDENCE — the series-parallel order of the tasks of a chart.

  Two different tasks of a chart have a lowest group in common, and lie in different parts of it.
  If it is a sequence, the one in the earlier part ran before the other; if it ran in parallel,
  neither did.  Nothing else about two tasks matters for the order in which they ran.

  * `Parted flow c p q` — the paths `p` and `q` part ways at a group of that flow, `p` into an
    earlier part than `q`.  It is stated through the whole way down, and used through
    `parted_cons`, which says what it comes to one level further down;
  * `Precedes` is `Parted .sequential`, a strict order on the tasks of a chart, and
    `LeafOf c` is the partial order that it makes of them;
  * two tasks part at one group only, and so by one flow and in one direction
    (`parted_flow_unique`, `Parted.asymm`).
-/
import Mathlib.Order.RelClasses
import Mathlib.Order.Interval.Finset.Basic
import SpanChart.Proofs.Leaves

namespace SpanChart.Chart

variable {α : Type} [Scalar α]

/-- How the parts of a chart ran, if it has any. -/
def flow? : Chart α → Option Flow
  | task _ => none
  | group flow _ _ _ => some flow

/-- The paths `p` and `q` part at a group of the given flow, `p` into an earlier part. -/
def Parted (flow : Flow) (c : Chart α) (p q : List Nat) : Prop :=
  ∃ (above : List Nat) (i j : Nat) (p' q' : List Nat),
    p = above ++ i :: p' ∧ q = above ++ j :: q' ∧ i < j ∧ (c.at? above).bind flow? = some flow

/-- What was at the first path had ended before what was at the second began. -/
def Precedes (c : Chart α) (p q : List Nat) : Prop := c.Parted .sequential p q

/-! ## One level at a time -/

/-- Paths part at the top, or both go down into one part and part there. -/
theorem parted_cons {flow : Flow} {c : Chart α} {i j : Nat} {p q : List Nat} :
    c.Parted flow (i :: p) (j :: q) ↔
      c.flow? = some flow ∧ i < j ∨ i = j ∧ ∃ d, c.parts[i]? = some d ∧ d.Parted flow p q := by
  constructor
  -- with nothing above where they part, that is here; else the first step is the same
  · rintro ⟨above, i', j', p', q', hp, hq, hij, habove⟩
    cases above with
    | nil =>
      obtain ⟨rfl, rfl⟩ := List.cons.inj hp
      obtain ⟨rfl, rfl⟩ := List.cons.inj hq
      exact Or.inl ⟨habove, hij⟩
    | cons k above =>
      obtain ⟨rfl, rfl⟩ := List.cons.inj hp
      obtain ⟨rfl, rfl⟩ := List.cons.inj hq
      rw [at?_cons] at habove
      obtain ⟨b, hb, hflow⟩ := Option.bind_eq_some_iff.1 habove
      obtain ⟨d, hd, hdb⟩ := Option.bind_eq_some_iff.1 hb
      exact Or.inr ⟨rfl, d, hd, above, i', j', p', q', rfl, rfl, hij, by rw [hdb]; exact hflow⟩
  · rintro (⟨hflow, hij⟩ | ⟨rfl, d, hd, above, i', j', p', q', rfl, rfl, hij, habove⟩)
    · exact ⟨[], i, j, p, q, rfl, rfl, hij, hflow⟩
    · exact ⟨i :: above, i', j', p', q', rfl, rfl, hij, by rw [at?_cons_of_part hd]; exact habove⟩

/-- Inside one part nothing else counts. -/
theorem parted_cons_self {flow : Flow} {c d : Chart α} {i : Nat} (hd : c.parts[i]? = some d)
    {p q : List Nat} : c.Parted flow (i :: p) (i :: q) ↔ d.Parted flow p q := by
  rw [parted_cons]
  constructor
  · rintro (⟨-, h⟩ | ⟨-, e, he, h⟩)
    · exact absurd h (Nat.lt_irrefl i)
    · rw [hd] at he
      exact Option.some.inj he ▸ h
  · exact fun h => Or.inr ⟨rfl, d, hd, h⟩

/-- No path parts from the end of another. -/
theorem Parted.exists_cons {flow : Flow} {c : Chart α} {p q : List Nat} (h : c.Parted flow p q) :
    ∃ i p' j q', p = i :: p' ∧ q = j :: q' := by
  obtain ⟨above, i, j, p', q', rfl, rfl, -, -⟩ := h
  cases above with
  | nil => exact ⟨i, p', j, q', rfl, rfl⟩
  | cons k above => exact ⟨k, above ++ i :: p', k, above ++ j :: q', rfl, rfl⟩

theorem not_parted_nil_left {flow : Flow} {c : Chart α} {q : List Nat} : ¬c.Parted flow [] q := by
  intro h
  obtain ⟨_, _, _, _, h, -⟩ := h.exists_cons
  exact List.cons_ne_nil _ _ h.symm

theorem not_parted_nil_right {flow : Flow} {c : Chart α} {p : List Nat} : ¬c.Parted flow p [] := by
  intro h
  obtain ⟨_, _, _, _, -, h⟩ := h.exists_cons
  exact List.cons_ne_nil _ _ h.symm

/-! ## A strict order for each flow -/

theorem Parted.irrefl {flow : Flow} {c : Chart α} {p : List Nat} : ¬c.Parted flow p p := by
  rintro ⟨above, i, j, p', q', hp, hq, hij, -⟩
  obtain ⟨rfl, -⟩ := List.cons.inj (List.append_cancel_left (hp.symm.trans hq))
  exact Nat.lt_irrefl i hij

theorem Parted.trans {flow : Flow} {c : Chart α} {p q r : List Nat} (hpq : c.Parted flow p q)
    (hqr : c.Parted flow q r) : c.Parted flow p r := by
  induction p generalizing c q r with
  | nil => exact absurd hpq not_parted_nil_left
  | cons i p ih =>
    obtain ⟨_, _, j, q, -, rfl⟩ := hpq.exists_cons
    obtain ⟨_, _, k, r, -, rfl⟩ := hqr.exists_cons
    rw [parted_cons] at hpq hqr ⊢
    rcases hpq with ⟨hflow, hij⟩ | ⟨rfl, d, hd, hpq⟩
    · -- they part at the top already, and the third path is no less far on
      have hjk : j ≤ k := by
        rcases hqr with ⟨-, hjk⟩ | ⟨rfl, -⟩ <;> omega
      exact Or.inl ⟨hflow, by omega⟩
    · rcases hqr with ⟨hflow, hjk⟩ | ⟨rfl, e, he, hqr⟩
      -- only the second and the third part here, or all three go down together
      · exact Or.inl ⟨hflow, hjk⟩
      · obtain rfl : d = e := Option.some.inj (hd.symm.trans he)
        exact Or.inr ⟨rfl, d, hd, ih hpq hqr⟩

/-- Paths part by one flow and in one direction. -/
theorem Parted.asymm {flow flow' : Flow} {c : Chart α} {p q : List Nat}
    (h : c.Parted flow p q) : ¬c.Parted flow' q p := by
  intro h'
  induction p generalizing c q with
  | nil => exact not_parted_nil_left h
  | cons i p ih =>
    obtain ⟨_, _, j, q, -, rfl⟩ := h.exists_cons
    rw [parted_cons] at h h'
    rcases h with ⟨-, hij⟩ | ⟨rfl, d, hd, h⟩
    · rcases h' with ⟨-, hji⟩ | ⟨rfl, -⟩ <;> omega
    · rcases h' with ⟨-, hji⟩ | ⟨-, e, he, h'⟩
      · exact Nat.lt_irrefl i hji
      · obtain rfl : d = e := Option.some.inj (hd.symm.trans he)
        exact ih h h'

theorem parted_flow_unique {flow flow' : Flow} {c : Chart α} {p q : List Nat}
    (h : c.Parted flow p q) (h' : c.Parted flow' p q) : flow = flow' := by
  induction p generalizing c q with
  | nil => exact absurd h not_parted_nil_left
  | cons i p ih =>
    obtain ⟨_, _, j, q, -, rfl⟩ := h.exists_cons
    rw [parted_cons] at h h'
    rcases h with ⟨hflow, hij⟩ | ⟨rfl, d, hd, h⟩
    · rcases h' with ⟨hflow', -⟩ | ⟨rfl, -⟩
      · exact Option.some.inj (hflow.symm.trans hflow')
      · exact absurd hij (Nat.lt_irrefl i)
    · rcases h' with ⟨-, hji⟩ | ⟨-, e, he, h'⟩
      · exact absurd hji (Nat.lt_irrefl i)
      · obtain rfl : d = e := Option.some.inj (hd.symm.trans he)
        exact ih h h'

/-! ## The tasks of a chart as a partial order -/

/-- A leaf of a given chart. -/
structure LeafOf (c : Chart α) extends Leaf α where
  mem : toLeaf ∈ c.leaves

namespace LeafOf

variable {c : Chart α}

/-- The leaves of a chart in order, each with the fact that it is one. -/
def all (c : Chart α) : List (LeafOf c) := c.leaves.pmap LeafOf.mk fun _ hl => hl

theorem mem_all (l : LeafOf c) : l ∈ all c := List.mem_pmap.2 ⟨l.toLeaf, l.mem, rfl⟩

theorem nodup_all (c : Chart α) : (all c).Nodup :=
  c.nodup_leaves.pmap fun _ _ _ _ h => congrArg toLeaf h

theorem map_toLeaf_all (c : Chart α) : (all c).map toLeaf = c.leaves := by
  rw [all, List.map_pmap, List.pmap_eq_map, List.map_id']

instance : Finite (LeafOf c) :=
  Set.finite_univ_iff.1 ((List.finite_toSet (all c)).subset fun l _ => mem_all l)

instance : IsStrictOrder (LeafOf c) fun s t => c.Precedes s.path t.path where
  irrefl _ := Parted.irrefl
  trans _ _ _ := Parted.trans

/-- One leaf is below another if it precedes it. -/
instance : PartialOrder (LeafOf c) := partialOrderOfSO fun s t => c.Precedes s.path t.path

theorem lt_iff_precedes {s t : LeafOf c} : s < t ↔ c.Precedes s.path t.path := Iff.rfl

/-- What precedes something does so by steps between which there is nothing. -/
theorem lt_iff_steps {s t : LeafOf c} : s < t ↔ Relation.TransGen (· ⋖ ·) s t := by
  classical
  have := Fintype.ofFinite (LeafOf c)
  have : LocallyFiniteOrder (LeafOf c) := Fintype.toLocallyFiniteOrder
  exact lt_iff_transGen_covBy

end LeafOf

end SpanChart.Chart
