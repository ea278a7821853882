import Dataflow.Proofs.Levels

/-!
# The ends of a plan

A root is an operator without an entry in the table of predecessors, and what a root leads to is
found by searching the table of successors. That the two have anything to do with each other is a
matter of finiteness: going back along edges one comes to a root, unless there is a cycle to go
round. So what no root leads to lies on a cycle or below one (`Linked.exists_cycle_above`), and it
is by such operators that a dependency order is cut short.

In depth-first order the operators that a root leads to are listed first, and all others after them
(`mem_preorder_roots_iff`). Without a cycle there are no others.
-/

namespace Dataflow

namespace Plan

/-- `k` is a root, or a path leads to it from a root. -/
def FromRoot (p : Plan) (k : Key) : Prop :=
  k ∈ p.roots ∨ ∃ root ∈ p.roots, p.pathExists root k

/-- `k` is a leaf, or a path leads from it to a leaf. -/
def ToLeaf (p : Plan) (k : Key) : Prop :=
  k ∈ p.leaves ∨ ∃ leaf ∈ p.leaves, p.pathExists k leaf

variable {p : Plan} {k j : Key}

/-! ### Back to a root -/

/-- A path with a number of edges is no path only if the number is zero. -/
theorem Path.eq_or_pathExists {n : Nat} (h : p.Path j n k) : j = k ∨ p.pathExists j k := by
  induction h with
  | nil => exact .inl rfl
  | concat _ hw ih =>
    rcases ih with rfl | hpath
    · exact .inr (pathExists_of_mem hw)
    · exact .inr (pathExists_trans hpath (pathExists_of_mem hw))

/-- **What lies below no cycle lies below a root.** -/
theorem Linked.fromRoot_of_clear (h : p.Linked) (hk : k ∈ p.clearAbove) : p.FromRoot k := by
  obtain ⟨n, root, hroot, hpath⟩ := h.exists_path_of_root hk
  rcases hpath.eq_or_pathExists with rfl | hpath
  · exact .inl hroot
  · exact .inr ⟨root, hroot, hpath⟩

/-- What no root leads to lies on a cycle or below one. -/
theorem Linked.exists_cycle_above (h : p.Linked) (hk : p.contains k) (hroot : ¬p.FromRoot k) :
    ∃ j, p.pathExists j j ∧ p.pathExists j k := by
  by_contra! hno
  exact hroot (h.fromRoot_of_clear (h.mem_clearAbove_iff.2 ⟨hk, hno⟩))

theorem Linked.toLeaf_iff (h : p.Linked) : p.ToLeaf k ↔ p.reversed.FromRoot k :=
  or_congr Iff.rfl (exists_congr fun _ ↦ and_congr_right fun _ ↦ h.pathExists_reversed_iff.symm)

theorem Linked.fromRoot_of_acyclic (h : p.Linked) (hacyclic : p.Acyclic) (hk : p.contains k) :
    p.FromRoot k :=
  h.fromRoot_of_clear (h.acyclic_iff_clearAbove.1 hacyclic ▸ mem_keys_iff.2 hk)

/-- Some operator is a root, if there is any. -/
theorem Linked.roots_ne_nil (h : p.Linked) (hacyclic : p.Acyclic) (hsize : 0 < p.size) :
    p.roots ≠ [] := by
  rw [← length_keys] at hsize
  obtain ⟨k, hk⟩ := List.exists_mem_of_length_pos hsize
  rcases h.fromRoot_of_acyclic hacyclic (mem_keys_iff.1 hk) with hroot | ⟨root, hroot, -⟩
  · exact List.ne_nil_of_mem hroot
  · exact List.ne_nil_of_mem hroot

/-- Where there is a cycle, the complaint of the walk counts fewer operators than there are. -/
theorem Linked.exists_cycle_error (h : p.Linked) (hcyclic : ¬p.Acyclic) :
    ∃ n < p.size, p.dependencyOrder = .error (.structural (.cycle n p.size)) := by
  have hle : p.clearAbove.length ≤ p.size := length_keys p ▸ List.length_filter_le ..
  have hne : p.clearAbove.length ≠ p.size := mt h.acyclic_iff_length.2 hcyclic
  exact ⟨_, Nat.lt_of_le_of_ne hle hne, h.dependencyOrder_eq_error hcyclic⟩

/-! ### The first trees of a depth-first walk -/

/-- A search covers what can be reached from the operators that it starts with. -/
theorem mem_explore_nil_iff {ks : List Key} :
    k ∈ explore p.succs ks [] ↔ ∃ j ∈ ks, j = k ∨ p.pathExists j k := by
  constructor
  · refine forall_mem_explore (P := fun k ↦ ∃ j ∈ ks, j = k ∨ p.pathExists j k) ?_ ?_ ?_ k
    · rintro i ⟨j, hj, rfl | hji⟩ k hk
      · exact ⟨j, hj, .inr (pathExists_of_mem hk)⟩
      · exact ⟨j, hj, .inr (pathExists_trans hji (pathExists_of_mem hk))⟩
    · exact fun j hj ↦ ⟨j, hj, .inl rfl⟩
    · exact fun _ hj ↦ absurd hj List.not_mem_nil
  · have hstep : ∀ {i k}, i ∈ explore p.succs ks [] → k ∈ p.successors i →
        k ∈ explore p.succs ks [] := fun hi hk ↦
      mem_explore_of_step (fun _ hi ↦ absurd hi List.not_mem_nil) hi hk
    rintro ⟨j, hj, rfl | hpath⟩
    · exact mem_explore_of_mem (.inl hj)
    · induction pathExists_iff.1 hpath with
      | single hk => exact hstep (mem_explore_of_mem (.inl hj)) hk
      | tail hleads hk ih => exact hstep (ih (pathExists_iff.2 hleads)) hk

/-- **The trees of the roots.** -/
theorem mem_preorder_roots_iff : k ∈ p.preorder [] p.roots ↔ p.FromRoot k := by
  have hexplore : k ∈ p.preorder [] p.roots ↔ k ∈ explore p.succs p.roots [] := by
    rw [explore_eq_preorder, List.append_nil, List.mem_reverse]
  rw [hexplore, mem_explore_nil_iff, FromRoot]
  constructor
  · rintro ⟨root, hroot, rfl | hpath⟩
    · exact .inl hroot
    · exact .inr ⟨root, hroot, hpath⟩
  · rintro (hk | ⟨root, hroot, hpath⟩)
    · exact ⟨k, hk, .inl rfl⟩
    · exact ⟨root, hroot, .inr hpath⟩

/-- After the trees of the roots come those of whatever is left. -/
theorem depthFirstOrder_eq_append (p : Plan) :
    p.depthFirstOrder = p.preorder [] p.roots ++ p.preorder (p.preorder [] p.roots) p.keys := by
  rw [depthFirstOrder_eq_preorder, starts, preorder_append, List.append_nil]

theorem depthFirstOrder_eq_of_fromRoot (hall : ∀ k, p.contains k → p.FromRoot k) :
    p.depthFirstOrder = p.preorder [] p.roots := by
  have hkeys : p.keys ⊆ p.preorder [] p.roots := fun k hk ↦
    mem_preorder_roots_iff.2 (hall k (mem_keys_iff.1 hk))
  rw [depthFirstOrder_eq_append, preorder_eq_nil hkeys, List.append_nil]

/-! ### Both ends -/

/-- **Plans without cycles are anchored at both ends.** Without a cycle every operator is a root or
lies below one, and is a leaf or lies above one; if there are operators, there are roots and leaves;
and depth-first order is made up of the trees of the roots. An operator that no root leads to lies
on a cycle or below one, and dependency order is refused on account of it; one that leads to no leaf
lies on a cycle or above one, and reverse dependency order is refused. -/
theorem anchored_at_ends (h : p.Linked) :
    (p.Acyclic →
      (∀ k, p.contains k → p.FromRoot k ∧ p.ToLeaf k) ∧
      (0 < p.size → p.roots ≠ [] ∧ p.leaves ≠ []) ∧
      Walker.depthFirst.walk p = .ok (p.preorder [] p.roots)) ∧
    (∀ k, p.contains k → ¬p.FromRoot k →
      (∃ j, p.pathExists j j ∧ p.pathExists j k) ∧
      ∃ n < p.size, Walker.dependency.walk p = .error (.structural (.cycle n p.size))) ∧
    ∀ k, p.contains k → ¬p.ToLeaf k →
      (∃ j, p.pathExists j j ∧ p.pathExists k j) ∧
      ∃ n < p.size, Walker.reverseDependency.walk p = .error (.structural (.cycle n p.size)) := by
  have hr : p.reversed.Linked := h.reversed
  refine ⟨fun hacyclic ↦ ?_, fun k hk hroot ↦ ?_, fun k hk hleaf ↦ ?_⟩
  · have hracyclic : p.reversed.Acyclic := h.acyclic_reversed_iff.2 hacyclic
    have hfrom : ∀ k, p.contains k → p.FromRoot k := fun k ↦ h.fromRoot_of_acyclic hacyclic
    refine ⟨fun k hk ↦ ⟨hfrom k hk, h.toLeaf_iff.2 (hr.fromRoot_of_acyclic hracyclic hk)⟩,
      fun hsize ↦ ⟨h.roots_ne_nil hacyclic hsize, hr.roots_ne_nil hracyclic hsize⟩, ?_⟩
    exact congrArg _ (depthFirstOrder_eq_of_fromRoot hfrom)
  · obtain ⟨j, hj, hjk⟩ := h.exists_cycle_above hk hroot
    exact ⟨⟨j, hj, hjk⟩, h.exists_cycle_error fun hacyclic ↦ hacyclic j hj⟩
  · obtain ⟨j, hj, hkj⟩ := hr.exists_cycle_above hk (mt h.toLeaf_iff.2 hleaf)
    rw [h.pathExists_reversed_iff] at hj hkj
    exact ⟨⟨j, hj, hkj⟩, hr.exists_cycle_error fun hacyclic ↦
      h.acyclic_reversed_iff.1 hacyclic j hj⟩

/-- No root leads to the ring of the tangle, nor does the ring lead to a leaf, so neither dependency
order comes about. With the ring cut up, every operator is the root or lies below it, except the one
that is left of the ring, and this is a root itself. -/
theorem anchored_at_ends_tangle :
    tangle.Linked ∧ ¬tangle.FromRoot ⟨"walk", 0⟩ ∧ ¬tangle.ToLeaf ⟨"walk", 0⟩ ∧
      (∃ j, tangle.pathExists j j ∧ tangle.pathExists j ⟨"walk", 0⟩) ∧
      (∃ n < 6, Walker.dependency.walk tangle = .error (.structural (.cycle n 6))) ∧
      (∃ n < 6, Walker.reverseDependency.walk tangle = .error (.structural (.cycle n 6))) ∧
      untangled.Linked ∧ untangled.Acyclic ∧ untangled.roots = [⟨"walk", 1⟩, ⟨"walk", 2⟩] ∧
      untangled.FromRoot ⟨"walk", 4⟩ ∧ untangled.ToLeaf ⟨"walk", 2⟩ ∧
      Walker.depthFirst.walk untangled = .ok (untangled.preorder [] untangled.roots) := by
  have h : tangle.Linked := (checkInvariants_eq_ok_iff.1 (by decide)).1
  have hroots : tangle.roots = [⟨"walk", 2⟩] := by decide
  have hleaves : tangle.leaves = [⟨"walk", 4⟩, ⟨"walk", 5⟩] := by decide
  have hbelow : tangle.below ⟨"walk", 2⟩ = [⟨"walk", 5⟩, ⟨"walk", 4⟩, ⟨"walk", 3⟩] := by cbv
  have hring : tangle.below ⟨"walk", 0⟩ = [⟨"walk", 0⟩, ⟨"walk", 1⟩] := by cbv
  have hroot : ¬tangle.FromRoot ⟨"walk", 0⟩ := by
    simp only [FromRoot, pathExists, hroots, List.mem_singleton, exists_eq_left, hbelow]
    decide
  have hleaf : ¬tangle.ToLeaf ⟨"walk", 0⟩ := by
    simp only [ToLeaf, pathExists, hleaves, hring]
    decide
  obtain ⟨-, hfrom, hto⟩ := anchored_at_ends h
  obtain ⟨hcycle, herror⟩ := hfrom ⟨"walk", 0⟩ (by decide) hroot
  obtain ⟨-, herror'⟩ := hto ⟨"walk", 0⟩ (by decide) hleaf
  have hu : untangled.Linked := (checkInvariants_eq_ok_iff.1 (by decide)).1
  have hacyclic : untangled.Acyclic := hu.dependencyOrder_isOk_iff.1
    ⟨[⟨"walk", 1⟩, ⟨"walk", 2⟩, ⟨"walk", 3⟩, ⟨"walk", 4⟩, ⟨"walk", 5⟩], by decide +kernel⟩
  obtain ⟨hends, -, hwalk⟩ := (anchored_at_ends hu).1 hacyclic
  exact ⟨h, hroot, hleaf, hcycle, herror, herror', hu, hacyclic, by decide,
    (hends ⟨"walk", 4⟩ (by decide)).1, (hends ⟨"walk", 2⟩ (by decide)).2, hwalk⟩

end Plan

end Dataflow
