import Dataflow.Proofs.Cycles
import Dataflow.Proofs.FirstOccurrences
import Dataflow.Proofs.Validation
import Dataflow.Walk.Verify

/-!
# What the check of a dependency order accepts

`Plan.verifyTopological` wants every edge between listed keys to lead forward, and all that feeds a
listed key to be listed. As to which keys are listed, it only counts: nothing may be repeated, and
there have to be as many keys as operators (`verifyCovers_eq_ok_iff`).

Among lists of operators this makes the check exact: it accepts those that have every operator once
and all edges forward, and no others. But the count does not tell operators from other keys. A key
that is not in the plan is fed by nothing, so it may stand anywhere, and it may stand for an operator
that is not listed (`stranger_accepted`).
-/

namespace Dataflow

namespace Plan

variable {p : Plan}

/-! ### Counting -/

/-- **Coverage is a matter of numbers.** -/
theorem verifyCovers_eq_ok_iff {order : List Key} :
    p.verifyCovers order = .ok () ↔ order.Nodup ∧ order.length = p.size := by
  simp only [verifyCovers, Check.throw_bind, Check.guard_eq_ok_iff, Check.pure_eq_ok_iff, ne_eq,
    Decidable.not_not, length_eraseDups_eq_iff, and_true]

/-- Among lists of operators, the numbers tell whether all are listed. -/
theorem perm_keys_iff {order : List Key} (h : ∀ k ∈ order, p.contains k) :
    order.Perm p.keys ↔ order.Nodup ∧ order.length = p.size := by
  constructor
  · intro hperm
    exact ⟨nodup_of_perm hperm, length_eq_size_of_perm hperm⟩
  · rintro ⟨hnodup, hlength⟩
    have hsub : order ⊆ p.keys := fun k hk ↦ mem_keys_iff.2 (h k hk)
    exact (hnodup.subperm hsub).perm_of_length_le (by rw [length_keys, hlength])

/-! ### What stands before what -/

/-- There is nothing to be found outside `seen`. -/
theorem find?_not_mem_eq_none_iff {seen l : List Key} :
    l.find? (· ∉ seen) = none ↔ l ⊆ seen := by
  simp only [List.find?_eq_none, decide_eq_true_eq, Decidable.not_not]
  rfl

/-- What feeds a key stands before it, or has been seen before all of them. By induction on the
keys; each of them has been seen from its turn on. -/
theorem verifyAfterPredecessors_eq_ok_iff {seen order : List Key} :
    p.verifyAfterPredecessors seen order = .ok () ↔
      ∀ l k r, order = l ++ k :: r → ∀ j ∈ p.predecessors k, j ∈ seen ∨ j ∈ l := by
  induction order generalizing seen with
  | nil => exact iff_of_true rfl fun l k r hnil ↦ absurd hnil (by simp)
  | cons k rest ih =>
    have hstep : p.verifyAfterPredecessors seen (k :: rest) = .ok () ↔
        p.predecessors k ⊆ seen ∧ p.verifyAfterPredecessors (k :: seen) rest = .ok () := by
      rw [verifyAfterPredecessors, ← find?_not_mem_eq_none_iff]
      cases (p.predecessors k).find? (· ∉ seen) <;> simp
    rw [hstep, ih]
    constructor
    · rintro ⟨hk, hrest⟩ l i r heq j hj
      rcases List.cons_eq_append_iff.1 heq with ⟨rfl, hcons⟩ | ⟨l', rfl, hrest'⟩
      · obtain ⟨rfl, -⟩ := List.cons.inj hcons
        exact .inl (hk hj)
      · rcases hrest l' i r hrest' j hj with hseen | hl
        · rcases List.mem_cons.1 hseen with rfl | hseen
          · exact .inr (List.mem_cons_self ..)
          · exact .inl hseen
        · exact .inr (.tail _ hl)
    · intro hall
      refine ⟨fun j hj ↦ ?_, fun l i r heq j hj ↦ ?_⟩
      · exact (hall [] k rest rfl j hj).resolve_right List.not_mem_nil
      · rcases hall (k :: l) i r (by rw [heq, List.cons_append]) j hj with hseen | hl
        · exact .inl (.tail _ hseen)
        · rcases List.mem_cons.1 hl with rfl | hl
          · exact .inl (List.mem_cons_self ..)
          · exact .inr hl

/-- In a list that repeats nothing, to stand before is to have the lesser index. -/
theorem mem_left_iff {l r : List Key} {j k : Key} (h : (l ++ k :: r).Nodup) :
    j ∈ l ↔ (l ++ k :: r).idxOf j < (l ++ k :: r).idxOf k := by
  have hk : k ∉ l := fun hk ↦ (List.nodup_append.1 h).2.2 k hk k (List.mem_cons_self ..) rfl
  have hidx : (l ++ k :: r).idxOf k = l.length := by
    rw [List.idxOf_append_of_notMem hk, List.idxOf_cons_self, Nat.add_zero]
  rw [hidx]
  constructor
  · intro hj
    rw [List.idxOf_append_of_mem hj]
    exact List.idxOf_lt_length_of_mem hj
  · intro hlt
    by_contra hj
    rw [List.idxOf_append_of_notMem hj] at hlt
    omega

/-- **What the check accepts.** Whatever is listed: nothing is repeated, there are as many keys as
operators, and each edge that leads to a listed key leads forward. -/
theorem Linked.verifyTopological_eq_ok_iff (h : p.Linked) {order : List Key} :
    p.verifyTopological order = .ok () ↔ order.Nodup ∧ order.length = p.size ∧
      ∀ u v, p.hasEdge u v → v ∈ order → order.idxOf u < order.idxOf v := by
  have hsplit : p.verifyTopological order = .ok () ↔
      p.verifyCovers order = .ok () ∧ p.verifyAfterPredecessors [] order = .ok () :=
    Check.unit_bind_eq_ok_iff
  rw [hsplit, verifyCovers_eq_ok_iff, verifyAfterPredecessors_eq_ok_iff, and_assoc]
  refine and_congr_right fun hnodup ↦ and_congr_right fun _ ↦ ?_
  constructor
  · intro hall u v huv hv
    obtain ⟨l, r, rfl⟩ := List.append_of_mem hv
    have hfeeds := (h.mem_successors_iff u v).1 (hasEdge_iff.1 huv)
    exact (mem_left_iff hnodup).1 ((hall l v r rfl u hfeeds).resolve_left List.not_mem_nil)
  · rintro hall l v r rfl u hu
    have huv := hasEdge_iff.2 ((h.mem_successors_iff u v).2 hu)
    exact .inr ((mem_left_iff hnodup).2 (hall u v huv (by simp)))

/-! ### Topological orders -/

/-- The list has every operator once and nothing else, and every edge leads forward in it. -/
def IsTopological (p : Plan) (order : List Key) : Prop :=
  order.Perm p.keys ∧ ∀ u v, p.hasEdge u v → order.idxOf u < order.idxOf v

/-- **The check is exact among lists of operators.** What is accepted in general repeats nothing, has
as many keys as there are operators, and has the edges to its keys forward. If only operators are
listed, then these are the topological orders and no others; and topological orders are accepted in
any case. -/
theorem topological_check_exact (h : p.Linked) (order : List Key) :
    (p.verifyTopological order = .ok () ↔ order.Nodup ∧ order.length = p.size ∧
      ∀ u v, p.hasEdge u v → v ∈ order → order.idxOf u < order.idxOf v) ∧
    ((∀ k ∈ order, p.contains k) →
      (p.verifyTopological order = .ok () ↔ p.IsTopological order)) ∧
    (p.IsTopological order → p.verifyTopological order = .ok ()) := by
  have hiff : (∀ k ∈ order, p.contains k) →
      (p.verifyTopological order = .ok () ↔ p.IsTopological order) := by
    intro hops
    rw [h.verifyTopological_eq_ok_iff, IsTopological, perm_keys_iff hops, and_assoc]
    refine and_congr_right fun hnodup ↦ and_congr_right fun hlength ↦ ?_
    have hperm := (perm_keys_iff hops).2 ⟨hnodup, hlength⟩
    refine ⟨fun hall u v huv ↦ hall u v huv ?_, fun hall u v huv _ ↦ hall u v huv⟩
    exact hperm.mem_iff.2 (mem_keys_iff.2 (h.contains_of_mem (hasEdge_iff.1 huv)).2)
  refine ⟨h.verifyTopological_eq_ok_iff, hiff, fun htop ↦ (hiff fun k hk ↦ ?_).2 htop⟩
  exact mem_keys_iff.1 (htop.1.mem_iff.1 hk)

/-- In the fork, the two sinks may come in either order, but neither before the split. -/
theorem topological_check_exact_fork :
    fork.Linked ∧ fork.IsTopological [⟨"flow", 0⟩, ⟨"flow", 1⟩, ⟨"flow", 3⟩, ⟨"flow", 2⟩] ∧
      fork.verifyTopological [⟨"flow", 0⟩, ⟨"flow", 1⟩, ⟨"flow", 3⟩, ⟨"flow", 2⟩] = .ok () ∧
      ¬fork.IsTopological [⟨"flow", 0⟩, ⟨"flow", 2⟩, ⟨"flow", 1⟩, ⟨"flow", 3⟩] := by
  have h : fork.Linked := (checkInvariants_eq_ok_iff.1 (by decide)).1
  obtain ⟨-, hiff, haccepts⟩ :=
    topological_check_exact h [⟨"flow", 0⟩, ⟨"flow", 1⟩, ⟨"flow", 3⟩, ⟨"flow", 2⟩]
  have htop := (hiff (by decide)).1 (by decide)
  refine ⟨h, htop, haccepts htop, fun hwrong ↦ ?_⟩
  exact absurd ((topological_check_exact h _).2.2 hwrong) (by decide)

/-- A source on its own. -/
def lonely : Plan :=
  ((∅ : Plan).add ⟨⟨"", 0⟩, "0", .source, false, false⟩).plan

/-- **A stranger is taken for an operator.** The only key that is listed is not in the plan, and the
only operator of the plan is not listed; the numbers agree. -/
theorem stranger_accepted :
    lonely.checkInvariants = .ok () ∧ lonely.verifyTopological [⟨"", 1⟩] = .ok () ∧
      ¬lonely.IsTopological [⟨"", 1⟩] := by
  have hstranger : (⟨"", 1⟩ : Key) ∉ lonely.keys := by decide
  refine ⟨by decide, by decide, fun htop ↦ hstranger ?_⟩
  exact htop.1.mem_iff.1 (List.mem_cons_self ..)

end Plan

end Dataflow
