import Dataflow.Plan.Edit
import Dataflow.Proofs.Linked
import Mathlib.Algebra.Module.Submodule.Lattice
import Mathlib.Computability.Primrec.List
import Mathlib.Data.List.Permutation
import Mathlib.Logic.Relation
import Mathlib.ModelTheory.Encoding

/-!
# What the search for reachable keys finds

`Adjacency.closure` is a breadth-first search. It is read here as a search for the keys that
`Adjacency.Leads` speaks of, and `mem_closure_iff` says that it finds exactly those, in whatever
adjacency. Two facts about `Adjacency.sweep` carry this: nothing turns up that no path leads to, and
a set of keys is handed over only when it is closed under going one step further.

A search recurses by a measure, so the modules that build on this one evaluate searches in given
plans by `cbv`. What is imported besides `Mathlib.Logic.Relation` has the equations of
`List.lookup`, `Option.join`, `≤` and the projections by which it does so.
-/

namespace Dataflow

namespace Adjacency

variable (a : Adjacency)

/-- One step from `k` to one of its neighbours. -/
def Step (k j : Key) : Prop :=
  j ∈ neighbours a k

/-- A path of one or more steps. -/
def Leads : Key → Key → Prop :=
  Relation.TransGen a.Step

/-! ### One round of the search -/

@[simp]
theorem sweep_nil (seen : List Key) : sweep a [] seen = seen := by
  rw [sweep]

theorem sweep_of_mem {k : Key} {seen : List Key} (rest : List Key) (hk : k ∈ seen) :
    sweep a (k :: rest) seen = sweep a rest seen := by
  rw [sweep, dif_pos hk]

/-- A key without an entry is visited like one with an empty list. -/
theorem sweep_of_not_mem {k : Key} {seen : List Key} (rest : List Key) (hk : k ∉ seen) :
    sweep a (k :: rest) seen = sweep a (rest ++ neighbours a k) (k :: seen) := by
  rw [sweep, dif_neg hk]
  split
  next hnone => rw [neighbours, hnone, Option.getD_none, List.append_nil]
  next next hsome => rw [neighbours_eq_of_get? hsome]

/-- Induction along the search. -/
theorem sweep_induction {motive : List Key → List Key → Prop} (nil : ∀ seen, motive [] seen)
    (skip : ∀ k rest seen, k ∈ seen → motive rest seen → motive (k :: rest) seen)
    (visit : ∀ k rest seen, k ∉ seen → motive (rest ++ neighbours a k) (k :: seen) →
      motive (k :: rest) seen) (queue seen : List Key) : motive queue seen := by
  induction queue, seen using sweep.induct a with
  | case1 seen => exact nil seen
  | case2 seen k rest hk ih => exact skip k rest seen hk ih
  | case3 seen k rest hk hnone ih =>
    refine visit k rest seen hk ?_
    rwa [neighbours, hnone, Option.getD_none, List.append_nil]
  | case4 seen k rest hk next hsome ih =>
    refine visit k rest seen hk ?_
    rwa [neighbours_eq_of_get? hsome]

variable {a}

/-! ### What the search returns -/

theorem nodup_sweep (queue : List Key) {seen : List Key} (h : seen.Nodup) :
    (sweep a queue seen).Nodup := by
  induction queue, seen using sweep_induction a with
  | nil seen => rwa [sweep_nil]
  | skip k rest seen hk ih =>
    rw [sweep_of_mem a rest hk]
    exact ih h
  | visit k rest seen hk ih =>
    rw [sweep_of_not_mem a rest hk]
    exact ih (h.cons hk)

/-- Nothing is forgotten. -/
theorem mem_sweep_of_mem {queue seen : List Key} {j : Key} (h : j ∈ queue ∨ j ∈ seen) :
    j ∈ sweep a queue seen := by
  induction queue, seen using sweep_induction a with
  | nil seen =>
    rw [sweep_nil]
    exact h.resolve_left List.not_mem_nil
  | skip k rest seen hk ih =>
    rw [sweep_of_mem a rest hk]
    grind
  | visit k rest seen hk ih =>
    rw [sweep_of_not_mem a rest hk]
    grind

/-- **Soundness.** What is found was seen before, waits in the queue, or lies below what waits. -/
theorem exists_of_mem_sweep {queue seen : List Key} {j : Key} (h : j ∈ sweep a queue seen) :
    j ∈ seen ∨ ∃ k ∈ queue, Relation.ReflTransGen a.Step k j := by
  induction queue, seen using sweep_induction a with
  | nil seen =>
    rw [sweep_nil] at h
    exact .inl h
  | skip k rest seen hk ih =>
    rw [sweep_of_mem a rest hk] at h
    exact (ih h).imp_right fun ⟨i, hi, hij⟩ ↦ ⟨i, .tail _ hi, hij⟩
  | visit k rest seen hk ih =>
    rw [sweep_of_not_mem a rest hk] at h
    rcases ih h with hj | ⟨i, hi, hij⟩
    · rcases List.mem_cons.1 hj with rfl | hj
      · exact .inr ⟨j, List.mem_cons_self .., .refl⟩
      · exact .inl hj
    · rcases List.mem_append.1 hi with hi | hi
      · exact .inr ⟨i, .tail _ hi, hij⟩
      · exact .inr ⟨k, List.mem_cons_self .., .head hi hij⟩

/-- **Saturation.** If every step from what was seen ends at something seen or waiting, then no step
leads out of what is found. -/
theorem mem_sweep_of_step {queue seen : List Key}
    (h : ∀ i ∈ seen, ∀ j, a.Step i j → j ∈ queue ∨ j ∈ seen) {i j : Key}
    (hi : i ∈ sweep a queue seen) (hij : a.Step i j) : j ∈ sweep a queue seen := by
  induction queue, seen using sweep_induction a with
  | nil seen =>
    rw [sweep_nil] at hi ⊢
    exact (h i hi j hij).resolve_left List.not_mem_nil
  | skip k rest seen hk ih =>
    rw [sweep_of_mem a rest hk] at hi ⊢
    refine ih (fun i hi j hij ↦ ?_) hi
    rcases h i hi j hij with hj | hj
    · rcases List.mem_cons.1 hj with rfl | hj
      · exact .inr hk
      · exact .inl hj
    · exact .inr hj
  | visit k rest seen hk ih =>
    rw [sweep_of_not_mem a rest hk] at hi ⊢
    -- `k` is seen from now on, and its neighbours have joined the queue.
    refine ih (fun i hi j hij ↦ ?_) hi
    rw [List.mem_append, List.mem_cons]
    rcases List.mem_cons.1 hi with rfl | hi
    · exact .inl (.inr hij)
    · rcases h i hi j hij with hj | hj
      · exact (List.mem_cons.1 hj).elim (fun hj ↦ .inr (.inl hj)) fun hj ↦ .inl (.inl hj)
      · exact .inr (.inr hj)

theorem nodup_closure (start : Key) : (a.closure start).Nodup :=
  nodup_sweep _ .nil

/-- **The search finds what can be reached.** -/
theorem mem_closure_iff {start j : Key} : j ∈ a.closure start ↔ a.Leads start j := by
  constructor
  · intro h
    obtain h | ⟨k, hk, hkj⟩ := exists_of_mem_sweep h
    · cases h
    · exact .head' hk hkj
  · intro h
    induction h with
    | single hj => exact mem_sweep_of_mem (.inl hj)
    | tail _ hij ih => exact mem_sweep_of_step (fun _ hi ↦ absurd hi List.not_mem_nil) ih hij

end Adjacency

namespace Plan

variable {p : Plan}

/-! ### Above and below -/

theorem nodup_below (k : Key) : (p.below k).Nodup :=
  Adjacency.nodup_closure k

theorem nodup_above (k : Key) : (p.above k).Nodup :=
  Adjacency.nodup_closure k

theorem pathExists_iff {source target : Key} :
    p.pathExists source target ↔ Adjacency.Leads p.succs source target :=
  List.contains_iff_mem.trans Adjacency.mem_closure_iff

/-- Paths lead to operators of the plan. -/
theorem Linked.contains_of_leads (h : p.Linked) {k j : Key} (hj : Adjacency.Leads p.succs k j) :
    p.contains j := by
  obtain ⟨i, -, hij⟩ := Relation.TransGen.tail'_iff.1 hj
  exact (h.contains_of_mem hij).2

/-- Paths backwards are the reverse of paths. -/
theorem Linked.leads_preds_iff (h : p.Linked) {k j : Key} :
    Adjacency.Leads p.preds k j ↔ Adjacency.Leads p.succs j k := by
  have hswap : Adjacency.Step p.preds = Function.swap (Adjacency.Step p.succs) :=
    funext₂ fun x y ↦ propext (h.mem_successors_iff y x).symm
  rw [Adjacency.Leads, hswap, Relation.transGen_swap]
  rfl

theorem Linked.contains_of_mem_below (h : p.Linked) {k j : Key} (hj : j ∈ p.below k) :
    p.contains j :=
  h.contains_of_leads (Adjacency.mem_closure_iff.1 hj)

theorem Linked.contains_of_mem_above (h : p.Linked) {k j : Key} (hj : j ∈ p.above k) :
    p.contains j := by
  obtain ⟨i, hji, -⟩ := Relation.TransGen.head'_iff.1
    (h.leads_preds_iff.1 (Adjacency.mem_closure_iff.1 hj))
  exact (h.contains_of_mem hji).1

end Plan

end Dataflow
