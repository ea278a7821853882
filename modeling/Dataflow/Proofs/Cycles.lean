import Dataflow.Proofs.Reachability
import Mathlib.Data.Fintype.Card
import Mathlib.Data.Fintype.EquivFin
import Mathlib.Data.Fintype.Sets

/-!
# Cycles

An operator lies on a cycle if a path leads from it back to it. What can be reached from a cycle
cannot be put in dependency order, and everything else can: `Plan.clearAbove` lists the operators of
the second sort, and `Linked.clear_induction` is what makes them orderable. It is an induction from
an operator to those that it feeds. There is no base case to name, because above a clear operator
there are only finitely many others and no path among them leads back.

Turning all edges round, `Plan.reversed`, keeps a plan linked and exchanges the two directions, so
whatever is shown here of one direction holds of the other one.
-/

namespace Dataflow

namespace Plan

/-- No path leads back to where it started. -/
def Acyclic (p : Plan) : Prop :=
  ∀ k, ¬p.pathExists k k

/-- The plan with all its edges turned round. -/
def reversed (p : Plan) : Plan where
  ops := p.ops
  succs := p.preds
  preds := p.succs

/-- The operators that neither lie on a cycle nor can be reached from one. -/
def clearAbove (p : Plan) : List Key :=
  p.keys.filter fun k ↦
    !(p.pathExists k k || p.keys.any fun j ↦ p.pathExists j j && p.pathExists j k)

/-- The operators that neither lie on a cycle nor can reach one. -/
def clearBelow (p : Plan) : List Key :=
  p.keys.filter fun k ↦
    !(p.pathExists k k || p.keys.any fun j ↦ p.pathExists j j && p.pathExists k j)

variable {p : Plan}

/-! ### Keys and roots -/

theorem nodup_keys (p : Plan) : p.keys.Nodup :=
  p.ops.nodup_keys

theorem length_keys (p : Plan) : p.keys.length = p.size :=
  List.length_map _

theorem nodup_of_perm {ks : List Key} (h : ks.Perm p.keys) : ks.Nodup :=
  h.nodup_iff.2 (nodup_keys p)

/-- A list that has every operator once is as long as the plan. -/
theorem length_eq_size_of_perm {ks : List Key} (h : ks.Perm p.keys) : ks.length = p.size :=
  h.length_eq.trans (length_keys p)

theorem pairwise_keys (p : Plan) : p.keys.Pairwise (· < ·) :=
  List.pairwise_map.2 p.ops.ascending

/-- Roots are told by their lists of predecessors. -/
theorem Linked.roots_eq (h : p.Linked) :
    p.roots = p.keys.filter fun k ↦ p.predecessors k = [] := by
  refine List.filter_congr fun k _ ↦ ?_
  have hroot : p.preds.contains k ↔ p.predecessors k ≠ [] := h.pruned_preds.contains_iff k
  by_cases hk : p.predecessors k = [] <;> simp_all

theorem Linked.mem_roots_iff (h : p.Linked) {k : Key} :
    k ∈ p.roots ↔ p.contains k ∧ p.predecessors k = [] := by
  rw [h.roots_eq, List.mem_filter, mem_keys_iff, decide_eq_true_eq]

/-! ### Turning edges round -/

theorem Linked.reversed (h : p.Linked) : p.reversed.Linked where
  pruned_succs := h.pruned_preds
  pruned_preds := h.pruned_succs
  nodup_successors := h.nodup_predecessors
  nodup_predecessors := h.nodup_successors
  not_mem_successors_self := h.not_mem_predecessors_self
  contains_of_mem hb := (h.contains_of_mem ((h.mem_successors_iff _ _).2 hb)).symm
  mem_successors_iff a b := (h.mem_successors_iff b a).symm

theorem Linked.pathExists_reversed_iff (h : p.Linked) {k j : Key} :
    p.reversed.pathExists k j ↔ p.pathExists j k := by
  rw [pathExists_iff, pathExists_iff]
  exact h.leads_preds_iff

theorem Linked.acyclic_reversed_iff (h : p.Linked) : p.reversed.Acyclic ↔ p.Acyclic :=
  forall_congr' fun _ ↦ not_congr h.pathExists_reversed_iff

theorem Linked.clearAbove_reversed (h : p.Linked) : p.reversed.clearAbove = p.clearBelow := by
  have heq : ∀ k j, p.reversed.pathExists k j = p.pathExists j k := fun k j ↦
    Bool.eq_iff_iff.2 h.pathExists_reversed_iff
  unfold clearAbove clearBelow
  simp only [heq]
  rfl

/-! ### Clear operators -/

theorem Linked.contains_of_pathExists (h : p.Linked) {k j : Key} (hkj : p.pathExists k j) :
    p.contains k ∧ p.contains j := by
  have hleads := pathExists_iff.1 hkj
  obtain ⟨i, hki, -⟩ := Relation.TransGen.head'_iff.1 hleads
  exact ⟨(h.contains_of_mem hki).1, h.contains_of_leads hleads⟩

theorem pathExists_trans {i j k : Key} (hij : p.pathExists i j) (hjk : p.pathExists j k) :
    p.pathExists i k :=
  pathExists_iff.2 ((pathExists_iff.1 hij).trans (pathExists_iff.1 hjk))

theorem pathExists_of_mem {k j : Key} (h : j ∈ p.successors k) : p.pathExists k j :=
  pathExists_iff.2 (.single h)

/-- To lie on a cycle is to be reached from one. -/
theorem Linked.mem_clearAbove_iff (h : p.Linked) {k : Key} :
    k ∈ p.clearAbove ↔ p.contains k ∧ ∀ j, p.pathExists j j → ¬p.pathExists j k := by
  rw [clearAbove, List.mem_filter, mem_keys_iff, Bool.not_eq_true', Bool.or_eq_false_iff,
    List.any_eq_false]
  simp only [Bool.and_eq_true, not_and, mem_keys_iff]
  refine and_congr_right fun _ ↦ ⟨fun ⟨_, hall⟩ j hj ↦ ?_, fun hall ↦ ⟨?_, fun j _ ↦ hall j⟩⟩
  · exact hall j (h.contains_of_pathExists hj).1 hj
  · exact Bool.eq_false_iff.2 fun hk ↦ hall k hk hk

theorem nodup_clearAbove (p : Plan) : p.clearAbove.Nodup :=
  (nodup_keys p).filter _

/-- What feeds a clear operator is clear. -/
theorem Linked.mem_clearAbove_of_mem (h : p.Linked) {k j : Key} (hk : k ∈ p.clearAbove)
    (hj : k ∈ p.successors j) : j ∈ p.clearAbove := by
  rw [h.mem_clearAbove_iff] at hk ⊢
  refine ⟨(h.contains_of_mem hj).1, fun i hi hij ↦ hk.2 i hi ?_⟩
  exact pathExists_trans hij (pathExists_of_mem hj)

/-- **Induction along clear operators.** What holds of a clear operator as soon as it holds of all
that feed it, holds of all clear operators. -/
theorem Linked.clear_induction (h : p.Linked) {motive : Key → Prop}
    (step : ∀ k ∈ p.clearAbove, (∀ j ∈ p.predecessors k, motive j) → motive k) {k : Key}
    (hk : k ∈ p.clearAbove) : motive k := by
  let Above (i j : { k // k ∈ p.clearAbove }) : Prop := p.pathExists i.1 j.1
  have htrans : IsTrans _ Above := ⟨fun _ _ _ ↦ pathExists_trans⟩
  have hirrefl : Std.Irrefl Above := ⟨fun i hi ↦ (h.mem_clearAbove_iff.1 i.2).2 i.1 hi hi⟩
  have hwf : WellFounded Above := Finite.wellFounded_of_trans_of_irrefl Above
  suffices hall : ∀ i : { k // k ∈ p.clearAbove }, motive i.1 from hall ⟨k, hk⟩
  intro i
  induction i using hwf.induction with
  | _ i ih =>
    refine step i.1 i.2 fun j hj ↦ ?_
    have hji := (h.mem_successors_iff j i.1).2 hj
    exact ih ⟨j, h.mem_clearAbove_of_mem i.2 hji⟩ (pathExists_of_mem hji)

/-- A plan has no cycle exactly if all its operators are clear. -/
theorem Linked.acyclic_iff_clearAbove (h : p.Linked) : p.Acyclic ↔ p.clearAbove = p.keys := by
  constructor
  · intro hacyclic
    refine List.filter_eq_self.2 fun k hk ↦ ?_
    have hclear : k ∈ p.clearAbove :=
      h.mem_clearAbove_iff.2 ⟨mem_keys_iff.1 hk, fun j hj ↦ absurd hj (hacyclic j)⟩
    exact (List.mem_filter.1 hclear).2
  · intro heq k hk
    have hclear : k ∈ p.clearAbove := heq ▸ mem_keys_iff.2 (h.contains_of_pathExists hk).1
    exact (h.mem_clearAbove_iff.1 hclear).2 k hk hk

/-- So its length tells whether there is a cycle. -/
theorem Linked.acyclic_iff_length (h : p.Linked) : p.Acyclic ↔ p.clearAbove.length = p.size := by
  rw [h.acyclic_iff_clearAbove, ← length_keys]
  exact ⟨congrArg _, fun hlen ↦ List.filter_sublist.eq_of_length hlen⟩

end Plan

end Dataflow
