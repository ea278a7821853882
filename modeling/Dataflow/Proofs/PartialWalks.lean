import Dataflow.Proofs.Preorder
import Dataflow.Proofs.Subplans

/-!
# Walks of a part

A part of a plan is closed above if whatever feeds an operator of the part belongs to it
(`Plan.ClosedAbove`). A walk that follows the edges takes no notice of the rest of the plan then. It
goes on outside the part for a while and comes back where it was: from outside no edge leads in.

* A depth-first walk leaves the part by an edge, and sees nothing of the part before it is done
  below that edge (`ClosedAbove.preorder_induced`).
* When an operator outside the part is ordered, no counter inside changes, and where both wait in
  the queue those of the part keep their order (`Release.restrict_run`).

Both come to the same: the walk of the subplan lists what the walk of the plan lists from the part,
in the same order. If the part is closed below as well, so that no edge leads in or out
(`Plan.Detached`), this holds of all built-in walkers.
-/

namespace Dataflow

variable {keep : Key → Bool}

theorem Table.filter_insert {α : Type} (keep : Key → Bool) (t : Table α) (k : Key) (v : α) :
    (t.insert k v).filter (fun j _ ↦ keep j) =
      if keep k then (t.filter fun j _ ↦ keep j).insert k v else t.filter fun j _ ↦ keep j := by
  refine Table.ext_get? fun j ↦ ?_
  by_cases hk : keep k <;> by_cases hj : j = k <;> simp [get?_filter, get?_insert, hk, hj]

/-! ### Ordering a part -/

namespace Release

variable {next : Adjacency}

/-- What an ordering has done and has to do with the operators to keep. -/
def restrict (keep : Key → Bool) (r : Release) : Release where
  pending := r.pending.filter fun k _ ↦ keep k
  ready := r.ready.filter keep
  order := r.order.filter keep

theorem restrict_settle (r : Release) (k : Key) :
    (r.settle k).restrict keep =
      if keep k then (r.restrict keep).settle k else r.restrict keep := by
  have hget : (r.restrict keep).pending.get? k = (r.pending.get? k).filter fun _ ↦ keep k :=
    Table.get?_filter ..
  cases hn : r.pending.get? k with
  | none =>
    rw [settle, settle, hget, hn]
    exact (ite_self _).symm
  | some n =>
    rw [settle_of_get? hn]
    by_cases hk : keep k
    · rw [if_pos hk, settle_of_get? (n := n) (by rw [hget, hn, Option.filter_some, if_pos hk])]
      simp only [restrict, Table.filter_insert, if_pos hk]
      split <;> simp [hk]
    · rw [if_neg hk]
      simp only [restrict, Table.filter_insert, if_neg hk]
      split <;> simp [hk]

theorem restrict_foldl_settle (ks : List Key) (r : Release) :
    (ks.foldl settle r).restrict keep = (ks.filter keep).foldl settle (r.restrict keep) := by
  induction ks generalizing r with
  | nil => rfl
  | cons k ks ih =>
    rw [List.foldl_cons, ih, restrict_settle, List.filter_cons]
    split <;> rfl

theorem run_of_none {r : Release} (hnone : r.step next = none) : r.run next = r := by
  rw [run]
  split
  next => rfl
  next s hs => cases hnone.symm.trans hs

theorem run_of_step {r s : Release} (hs : r.step next = some s) : r.run next = s.run next := by
  rw [run]
  split
  next hnone => cases hnone.symm.trans hs
  next s' hs' => rw [Option.some.inj (hs'.symm.trans hs)]

/-- An operator of the part that is taken from the queue comes next in the part as well. Where
another one is taken, nothing happens to the part, for its neighbours lie outside. -/
theorem restrict_step (hclosed : ∀ a b, b ∈ Adjacency.neighbours next a → keep b → keep a)
    {r s : Release} (hs : r.step next = some s) :
    (r.restrict keep).step (Adjacency.restrict keep next) = some (s.restrict keep) ∨
      s.restrict keep = r.restrict keep := by
  rw [step] at hs
  split at hs
  · cases hs
  next k rest hr =>
    have hready : (r.restrict keep).ready = (k :: rest).filter keep :=
      congrArg (List.filter keep) hr
    rw [← Option.some.inj hs, restrict_foldl_settle]
    by_cases hk : keep k
    · left
      rw [List.filter_cons_of_pos hk] at hready
      rw [step, hready]
      dsimp only
      rw [Adjacency.neighbours_restrict, if_pos hk]
      simp only [restrict, List.filter_append, List.filter_cons_of_pos hk, List.filter_nil]
    · right
      have hnext : (Adjacency.neighbours next k).filter keep = [] :=
        List.filter_eq_nil_iff.2 fun j hj hkeep ↦ hk (hclosed k j hj hkeep)
      rw [List.filter_cons_of_neg hk] at hready
      rw [hnext, List.foldl_nil]
      simp only [restrict, List.filter_append, List.filter_cons_of_neg hk, List.filter_nil,
        List.append_nil, ← hready]

/-- **The rest of the plan is not noticed.** By induction along the ordering of the whole plan; that
of the part takes some of its steps. -/
theorem restrict_run (hclosed : ∀ a b, b ∈ Adjacency.neighbours next a → keep b → keep a)
    (r : Release) :
    (r.run next).restrict keep = (r.restrict keep).run (Adjacency.restrict keep next) := by
  fun_induction Release.run next r with
  | case1 r hnone =>
    have hready : (r.restrict keep).ready = [] :=
      congrArg (List.filter keep) (step_eq_none_iff.1 hnone)
    exact (run_of_none (step_eq_none_iff.2 hready)).symm
  | case2 r s hs ih =>
    rcases restrict_step hclosed hs with hstep | hsame
    · rw [ih, run_of_step hstep]
    · rw [ih, hsame]

end Release

namespace Plan

variable {p : Plan} {ks : List Key}

/-! ### Closed parts -/

/-- Whatever feeds an operator of the part belongs to it. -/
def ClosedAbove (p : Plan) (keep : Key → Bool) : Prop :=
  ∀ a b, b ∈ p.successors a → keep b → keep a

/-- No edge leads into the part or out of it. -/
def Detached (p : Plan) (keep : Key → Bool) : Prop :=
  ∀ a b, b ∈ p.successors a → keep a = keep b

theorem Detached.closedAbove (hd : p.Detached keep) : p.ClosedAbove keep :=
  fun a b hab hb ↦ (hd a b hab).trans hb

theorem Detached.reversed (hd : p.Detached keep) (h : p.Linked) : p.reversed.Detached keep :=
  fun a b hab ↦ (hd b a ((h.mem_successors_iff b a).2 hab)).symm

theorem keys_induced (keep : Key → Bool) (p : Plan) : (p.induced keep).keys = p.keys.filter keep :=
  Table.keys_filter keep p.ops

/-- In a part that is closed above, operators are fed by what fed them. -/
theorem ClosedAbove.predecessors_induced (hc : p.ClosedAbove keep) (h : p.Linked) {k : Key}
    (hk : keep k) : (p.induced keep).predecessors k = p.predecessors k := by
  rw [Plan.predecessors_induced, if_pos hk]
  exact List.filter_eq_self.2 fun j hj ↦ hc j k ((h.mem_successors_iff j k).2 hj) hk

theorem ClosedAbove.roots_induced (hc : p.ClosedAbove keep) (h : p.Linked) :
    (p.induced keep).roots = p.roots.filter keep := by
  rw [roots, roots, keys_induced, List.filter_filter, List.filter_filter]
  refine List.filter_congr fun k _ ↦ ?_
  by_cases hk : keep k
  · have hentry : (p.induced keep).preds.contains k = p.preds.contains k := by
      have hpruned : Adjacency.Pruned (p.induced keep).preds := Adjacency.pruned_restrict _ _
      rw [Bool.eq_iff_iff, hpruned.contains_iff, h.pruned_preds.contains_iff]
      exact not_congr (Eq.congr_left (hc.predecessors_induced h hk))
    rw [hentry, Bool.and_comm]
  · rw [Bool.eq_false_iff.2 hk, Bool.and_false, Bool.false_and]

/-! ### Depth-first order -/

/-- **Nor do trees of the part notice it.** By induction along the recursion. What is visited below
an operator outside the part lies outside, too. -/
theorem ClosedAbove.preorder_induced (hc : p.ClosedAbove keep) (seen ks : List Key) :
    (p.induced keep).preorder (seen.filter keep) (ks.filter keep) =
      (p.preorder seen ks).filter keep := by
  fun_induction preorder p seen ks with
  | case1 seen => exact preorder_nil _
  | case2 seen k ks hk ih =>
    rw [← ih, List.filter_cons]
    split
    next hkeep => exact preorder_of_mem _ (List.mem_filter.2 ⟨hk, hkeep⟩)
    next => rfl
  | case3 seen k ks hk tree ih =>
    rename_i ih'
    rw [List.filter_append, ← ih', List.filter_append]
    by_cases hkeep : keep k
    · have htree : tree.filter keep = k :: (p.induced keep).preorder (k :: seen.filter keep)
          ((p.induced keep).successors k) := by
        rw [successors_induced, if_pos hkeep, ← List.filter_cons_of_pos hkeep, ih]
        exact List.filter_cons_of_pos hkeep
      rw [List.filter_cons_of_pos hkeep, htree]
      exact preorder_of_not_mem _ fun hmem ↦ hk (List.mem_of_mem_filter hmem)
    · have hbelow : (p.successors k).filter keep = [] :=
        List.filter_eq_nil_iff.2 fun j hj hkeep' ↦ hkeep (hc k j hj hkeep')
      have htree : tree.filter keep = [] := by
        rw [List.filter_cons_of_neg hkeep, ← ih, hbelow, preorder_nil]
      rw [List.filter_cons_of_neg hkeep, htree, List.nil_append, List.nil_append]

theorem ClosedAbove.depthFirstOrder_induced (hc : p.ClosedAbove keep) (h : p.Linked) :
    (p.induced keep).depthFirstOrder = p.depthFirstOrder.filter keep := by
  rw [depthFirstOrder_eq_preorder, depthFirstOrder_eq_preorder, ← hc.preorder_induced, starts,
    starts, List.filter_append, hc.roots_induced h, keys_induced, List.filter_nil]

/-! ### Dependency order -/

theorem ClosedAbove.releaseForward_induced (hc : p.ClosedAbove keep) (h : p.Linked) :
    (p.induced keep).releaseForward = p.releaseForward.restrict keep := by
  have hpending : (p.induced keep).releaseForward.pending =
      (p.releaseForward.restrict keep).pending := by
    refine Table.ext_get? fun k ↦ ?_
    show ((p.ops.filter fun k _ ↦ keep k).mapWithKey _).get? k =
      ((p.ops.mapWithKey _).filter fun k _ ↦ keep k).get? k
    rw [Table.get?_mapWithKey, Table.get?_filter, Table.get?_filter, Table.get?_mapWithKey]
    by_cases hk : keep k
    · rw [inDegree, inDegree, hc.predecessors_induced h hk]
      cases p.ops.get? k <;> simp [hk, Option.filter_some]
    · cases p.ops.get? k <;> simp [hk, Option.filter_some]
  exact congrArg₂ (Release.mk · · []) hpending (hc.roots_induced h)

theorem ClosedAbove.dependencyOrder_induced (hc : p.ClosedAbove keep) (h : p.Linked)
    (hks : p.dependencyOrder = .ok ks) :
    (p.induced keep).dependencyOrder = .ok (ks.filter keep) := by
  have hperm : (ks.filter keep).Perm (p.induced keep).keys :=
    keys_induced keep p ▸ (h.perm_and_idxOf_lt hks).1.filter keep
  have hrun : ks = (p.releaseForward.run p.succs).order := by
    rw [dependencyOrder, complete] at hks
    split at hks
    · exact (Except.ok.inj hks).symm
    · cases hks
  have hpart : ((p.induced keep).releaseForward.run (p.induced keep).succs).order =
      ks.filter keep := by
    rw [hc.releaseForward_induced h, hrun]
    exact (congrArg Release.order (Release.restrict_run hc _)).symm
  rw [dependencyOrder, hpart]
  exact if_pos (length_eq_size_of_perm hperm)

end Plan

/-- **A part that no edge joins to the rest is walked on its own.** Whatever the keys of the rest
and however they stand among those of the part. -/
theorem WalkOrder.walk_induced {p : Plan} (h : p.Linked) (hd : p.Detached keep) {order : WalkOrder}
    {ks : List Key} (hks : order.walker.walk p = .ok ks) :
    order.walker.walk (p.induced keep) = .ok (ks.filter keep) := by
  cases order with
  | depthFirst =>
    exact congrArg Except.ok
      ((hd.closedAbove.depthFirstOrder_induced h).trans (Except.ok.inj hks ▸ rfl))
  | dependency => exact hd.closedAbove.dependencyOrder_induced h hks
  | reverseDependency => exact (hd.reversed h).closedAbove.dependencyOrder_induced h.reversed hks

end Dataflow
