import Dataflow.Proofs.DependencyOrder
import Dataflow.Walk.Choice

/-!
# What the built-in walkers list

A walk with a built-in walker lists every operator once (`WalkOrder.walk_perm`). Depth-first walks
always succeed, also where there are cycles. The other two fail on plans with a cycle, and on no
others; that this is their only way to fail is said once for all three by `WalkOrder.walk_error`.
-/

namespace Dataflow

namespace Plan

variable {succs : Adjacency}

/-! ### One round of the exploration -/

@[simp]
theorem explore_nil (visited : List Key) : explore succs [] visited = visited := by
  rw [explore]

theorem explore_of_mem {k : Key} {visited : List Key} (rest : List Key) (hk : k ∈ visited) :
    explore succs (k :: rest) visited = explore succs rest visited := by
  rw [explore, dif_pos hk]

/-- A key without an entry is visited like one with an empty list. -/
theorem explore_of_not_mem {k : Key} {visited : List Key} (rest : List Key) (hk : k ∉ visited) :
    explore succs (k :: rest) visited =
      explore succs ((Adjacency.neighbours succs k).filter (· ∉ k :: visited) ++ rest)
        (k :: visited) := by
  rw [explore, dif_neg hk]
  split
  next hnone => rw [Adjacency.neighbours, hnone]; rfl
  next next hsome => rw [Adjacency.neighbours_eq_of_get? hsome]

variable (succs) in
/-- Induction along the exploration. -/
theorem explore_induction {motive : List Key → List Key → Prop}
    (nil : ∀ visited, motive [] visited)
    (skip : ∀ k rest visited, k ∈ visited → motive rest visited → motive (k :: rest) visited)
    (visit : ∀ k rest visited, k ∉ visited →
      motive ((Adjacency.neighbours succs k).filter (· ∉ k :: visited) ++ rest) (k :: visited) →
      motive (k :: rest) visited) (stack visited : List Key) : motive stack visited := by
  induction stack, visited using explore.induct succs with
  | case1 visited => exact nil visited
  | case2 visited k rest hk ih => exact skip k rest visited hk ih
  | case3 visited k rest hk hnone ih =>
    refine visit k rest visited hk ?_
    rwa [Adjacency.neighbours, hnone, Option.getD_none, List.filter_nil, List.nil_append]
  | case4 visited k rest hk next hsome ih =>
    refine visit k rest visited hk ?_
    rwa [Adjacency.neighbours_eq_of_get? hsome]

/-! ### What an exploration visits -/

theorem nodup_explore (stack : List Key) {visited : List Key} (h : visited.Nodup) :
    (explore succs stack visited).Nodup := by
  induction stack, visited using explore_induction succs with
  | nil visited => rwa [explore_nil]
  | skip k rest visited hk ih =>
    rw [explore_of_mem rest hk]
    exact ih h
  | visit k rest visited hk ih =>
    rw [explore_of_not_mem rest hk]
    exact ih (h.cons hk)

/-- Everything on the stack is visited, and nothing is forgotten. -/
theorem mem_explore_of_mem {stack visited : List Key} {j : Key} (h : j ∈ stack ∨ j ∈ visited) :
    j ∈ explore succs stack visited := by
  induction stack, visited using explore_induction succs with
  | nil visited =>
    rw [explore_nil]
    exact h.resolve_left List.not_mem_nil
  | skip k rest visited hk ih =>
    rw [explore_of_mem rest hk]
    grind
  | visit k rest visited hk ih =>
    rw [explore_of_not_mem rest hk]
    grind

/-- An exploration does not leave a set of keys that no edge leads out of. -/
theorem forall_mem_explore {P : Key → Prop} {stack visited : List Key}
    (hstep : ∀ k, P k → ∀ j ∈ Adjacency.neighbours succs k, P j) (hstack : ∀ k ∈ stack, P k)
    (hvisited : ∀ k ∈ visited, P k) : ∀ k ∈ explore succs stack visited, P k := by
  induction stack, visited using explore_induction succs with
  | nil visited => rwa [explore_nil]
  | skip k rest visited hk ih =>
    rw [explore_of_mem rest hk]
    exact ih (fun j hj ↦ hstack j (.tail _ hj)) hvisited
  | visit k rest visited hk ih =>
    rw [explore_of_not_mem rest hk]
    have hPk := hstack k (List.mem_cons_self ..)
    refine ih (fun j hj ↦ ?_) (List.forall_mem_cons.2 ⟨hPk, hvisited⟩)
    rcases List.mem_append.1 hj with hj | hj
    · exact hstep k hPk j (List.mem_of_mem_filter hj)
    · exact hstack j (.tail _ hj)

/-- If every edge from what was visited ends at something visited or on the stack, then no edge leads
out of what is visited in the end. -/
theorem mem_explore_of_step {stack visited : List Key}
    (h : ∀ i ∈ visited, ∀ j ∈ Adjacency.neighbours succs i, j ∈ stack ∨ j ∈ visited) {i j : Key}
    (hi : i ∈ explore succs stack visited) (hij : j ∈ Adjacency.neighbours succs i) :
    j ∈ explore succs stack visited := by
  induction stack, visited using explore_induction succs with
  | nil visited =>
    rw [explore_nil] at hi ⊢
    exact (h i hi j hij).resolve_left List.not_mem_nil
  | skip k rest visited hk ih =>
    rw [explore_of_mem rest hk] at hi ⊢
    refine ih (fun i hi j hij ↦ ?_) hi
    rcases h i hi j hij with hj | hj
    · rcases List.mem_cons.1 hj with rfl | hj
      · exact .inr hk
      · exact .inl hj
    · exact .inr hj
  | visit k rest visited hk ih =>
    rw [explore_of_not_mem rest hk] at hi ⊢
    -- The successors of `k` are on the stack from now on, unless they have been visited.
    refine ih (fun i hi j hij ↦ ?_) hi
    by_cases hj : j ∈ k :: visited
    · exact .inr hj
    · rcases List.mem_cons.1 hi with rfl | hi
      · exact .inl (List.mem_append_left _ (List.mem_filter.2 ⟨hij, decide_eq_true hj⟩))
      · have hrest : j ∈ rest := by
          rcases h i hi j hij with hj' | hj'
          · exact (List.mem_cons.1 hj').resolve_left fun heq ↦ hj (heq ▸ List.mem_cons_self ..)
          · exact absurd (.tail _ hj') hj
        exact .inl (List.mem_append_right _ hrest)

/-- What stands deeper in the stack waits until everything above it is explored. -/
theorem explore_append (stack rest visited : List Key) :
    explore succs (stack ++ rest) visited = explore succs rest (explore succs stack visited) := by
  induction stack, visited using explore_induction succs with
  | nil visited => rw [List.nil_append, explore_nil]
  | skip k stack visited hk ih =>
    rw [List.cons_append, explore_of_mem _ hk, explore_of_mem _ hk, ih]
  | visit k stack visited hk ih =>
    rw [List.cons_append, explore_of_not_mem _ hk, explore_of_not_mem _ hk, ← List.append_assoc, ih]

/-- So trees explored one after the other are one exploration. -/
theorem foldl_explore (starts visited : List Key) :
    starts.foldl (fun visited k ↦ explore succs [k] visited) visited =
      explore succs starts visited := by
  induction starts generalizing visited with
  | nil => rw [List.foldl_nil, explore_nil]
  | cons k starts ih =>
    rw [List.foldl_cons, ih, ← explore_append]
    rfl

/-! ### Depth-first walks -/

variable {p : Plan}

theorem depthFirstOrder_eq (p : Plan) :
    p.depthFirstOrder = (explore p.succs p.starts []).reverse := by
  rw [depthFirstOrder, foldl_explore]

theorem nodup_depthFirstOrder (p : Plan) : p.depthFirstOrder.Nodup := by
  rw [depthFirstOrder_eq]
  exact List.nodup_reverse.2 (nodup_explore _ .nil)

theorem mem_starts {k : Key} : k ∈ p.starts ↔ p.contains k := by
  rw [starts, List.mem_append, mem_keys_iff, roots, List.mem_filter, mem_keys_iff]
  exact or_iff_right_of_imp And.left

theorem Linked.mem_depthFirstOrder_iff (h : p.Linked) {k : Key} :
    k ∈ p.depthFirstOrder ↔ p.contains k := by
  rw [depthFirstOrder_eq, List.mem_reverse]
  refine ⟨fun hk ↦ ?_, fun hk ↦ mem_explore_of_mem (.inl (mem_starts.2 hk))⟩
  -- No edge leads out of the plan, so the exploration stays inside.
  exact forall_mem_explore (P := fun j ↦ p.contains j) (fun i _ j hj ↦ (h.contains_of_mem hj).2)
    (fun _ ↦ mem_starts.1) (fun _ hj ↦ absurd hj List.not_mem_nil) k hk

/-- **Depth-first walks list every operator once.** -/
theorem Linked.depthFirstOrder_perm (h : p.Linked) : p.depthFirstOrder.Perm p.keys := by
  refine (List.perm_ext_iff_of_nodup (nodup_depthFirstOrder p) (nodup_keys p)).2 fun k ↦ ?_
  rw [h.mem_depthFirstOrder_iff, mem_keys_iff]

end Plan

/-! ### All built-in walkers -/

namespace WalkOrder

variable {p : Plan} (h : p.Linked)

include h

/-- **Walks list every operator once.** -/
theorem walk_perm {order : WalkOrder} {ks : List Key} (hks : order.walker.walk p = .ok ks) :
    ks.Perm p.keys := by
  cases order with
  | depthFirst => exact Except.ok.inj hks ▸ h.depthFirstOrder_perm
  | dependency => exact (h.perm_and_idxOf_lt hks).1
  | reverseDependency => exact (h.reversed.perm_and_idxOf_lt hks).1

theorem mem_iff_of_walk {order : WalkOrder} {ks : List Key} (hks : order.walker.walk p = .ok ks)
    {k : Key} : k ∈ ks ↔ p.contains k :=
  (walk_perm h hks).mem_iff.trans Plan.mem_keys_iff

/-- All walks but depth-first ones need a plan without cycles, and that is all they need. -/
theorem exists_walk_iff {order : WalkOrder} :
    (∃ ks, order.walker.walk p = .ok ks) ↔ order = .depthFirst ∨ p.Acyclic := by
  cases order with
  | depthFirst => exact iff_of_true ⟨_, rfl⟩ (.inl rfl)
  | dependency => exact h.dependencyOrder_isOk_iff.trans (or_iff_right nofun).symm
  | reverseDependency =>
    refine h.reversed.dependencyOrder_isOk_iff.trans ?_
    exact h.acyclic_reversed_iff.trans (or_iff_right nofun).symm

/-- **Without a cycle all walks succeed.** -/
theorem exists_walk (hacyclic : p.Acyclic) (order : WalkOrder) :
    ∃ ks, order.walker.walk p = .ok ks :=
  (exists_walk_iff h).2 (.inr hacyclic)

/-- **A walk fails only on account of a cycle.** -/
theorem walk_error {order : WalkOrder} {e : PlanError} (he : order.walker.walk p = .error e) :
    order ≠ .depthFirst ∧ ∃ n, e = .structural (.cycle n p.size) := by
  have hfail : ∀ q : Plan, q.Linked → q.dependencyOrder = .error e →
      ∃ n, e = .structural (.cycle n q.size) := fun q hq hqe ↦ by
    have hcyclic : ¬q.Acyclic := fun hacyclic ↦ by
      obtain ⟨ks, hks⟩ := hq.dependencyOrder_isOk_iff.2 hacyclic
      cases hks.symm.trans hqe
    exact ⟨_, Except.error.inj (hqe.symm.trans (hq.dependencyOrder_eq_error hcyclic))⟩
  cases order with
  | depthFirst => cases he
  | dependency => exact ⟨nofun, hfail p h he⟩
  | reverseDependency => exact ⟨nofun, hfail p.reversed h.reversed he⟩

end WalkOrder

end Dataflow
