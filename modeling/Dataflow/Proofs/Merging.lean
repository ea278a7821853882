import Dataflow.Proofs.PartialWalks

/-!
# Two plans in one

Plans without a common key can be merged, and each stays in the merged plan what it was
(`Linked.induced_union_left`): it is the subplan on its own keys, and no edge leads from it to the
other (`Linked.detached_union`). So walks of the merged plan go through both plans as walks of
either would, however the keys of the two alternate.
-/

namespace Dataflow

namespace Plan

variable {p q : Plan}

theorem merge_eq_union (hd : ∀ k, q.contains k → ¬p.contains k) :
    p.merge q = ⟨.ok (), p.union q⟩ :=
  commit_of_ok (checkMerge_eq_ok_iff.2 hd)

section Disjoint

variable (h : p.Linked) (hq : q.Linked) (hd : ∀ k, q.contains k → ¬p.contains k)

include h hq hd

/-! ### Either plan in the merged one -/

theorem Linked.union_comm : p.union q = q.union p := by
  have hd' : ∀ k, p.contains k → ¬q.contains k := fun k hk hk' ↦ hd k hk' hk
  have hu := hq.union h hd'
  have hu' := h.union hq hd
  refine hu.eq_of_lookups hu'.pruned_succs hu'.pruned_preds (fun j ↦ ?_) (fun j ↦ ?_) fun j ↦ ?_
  · rw [operator?_union, operator?_union]
    by_cases hj : q.contains j
    · rw [operator?_eq_none (hd j hj), Option.or_none, Option.none_or]
    · rw [operator?_eq_none hj, Option.or_none, Option.none_or]
  · rw [successors_union h hq hd, successors_union hq h hd']
    rcases h.eq_nil_or_eq_nil hq hd j with ⟨hj, -⟩ | ⟨hj, -⟩ <;>
      rw [hj, List.nil_append, List.append_nil]
  · rw [predecessors_union h hq hd, predecessors_union hq h hd']
    rcases h.eq_nil_or_eq_nil hq hd j with ⟨-, hj⟩ | ⟨-, hj⟩ <;>
      rw [hj, List.nil_append, List.append_nil]

/-- No edge joins the two. -/
theorem Linked.detached_union : (p.union q).Detached p.contains := by
  intro a b hab
  rw [successors_union h hq hd, List.mem_append] at hab
  rcases hab with hab | hab
  · exact (h.contains_of_mem hab).1.trans (h.contains_of_mem hab).2.symm
  · have ha := Bool.eq_false_iff.2 (hd a (hq.contains_of_mem hab).1)
    have hb := Bool.eq_false_iff.2 (hd b (hq.contains_of_mem hab).2)
    exact ha.trans hb.symm

/-- **Nothing is added to a plan on its own keys and nothing is lost.** -/
theorem Linked.induced_union_left : (p.union q).induced p.contains = p := by
  have hkeep : ∀ l : List Key, (∀ k ∈ l, p.contains k) → l.filter p.contains = l :=
    fun _ ↦ List.filter_eq_self.2
  refine h.eq_of_lookups (Adjacency.pruned_restrict _ _) (Adjacency.pruned_restrict _ _)
    (fun j ↦ ?_) (fun j ↦ ?_) fun j ↦ ?_
  · rw [operator?_induced, operator?_union]
    split
    next hj => rw [operator?_eq_none fun hj' ↦ hd j hj' hj, Option.none_or]
    next hj => rw [operator?_eq_none hj]
  · rw [successors_induced, successors_union h hq hd]
    split
    next hj =>
      rw [hq.successors_eq_nil fun hj' ↦ hd j hj' hj, List.append_nil]
      exact hkeep _ fun k hk ↦ (h.contains_of_mem hk).2
    next hj => rw [h.successors_eq_nil hj]
  · rw [predecessors_induced, predecessors_union h hq hd]
    split
    next hj =>
      rw [hq.predecessors_eq_nil fun hj' ↦ hd j hj' hj, List.append_nil]
      exact hkeep _ fun k hk ↦ (h.contains_of_mem ((h.mem_successors_iff k j).2 hk)).1
    next hj => rw [h.predecessors_eq_nil hj]

/-! ### Paths -/

/-- A path of the merged plan is one of the two. By induction along it; no edge leads on from one
plan into the other. -/
theorem Linked.pathExists_union_iff {a b : Key} :
    (p.union q).pathExists a b ↔ p.pathExists a b ∨ q.pathExists a b := by
  have hstep : ∀ a b, b ∈ (p.union q).successors a ↔ b ∈ p.successors a ∨ b ∈ q.successors a :=
    fun a b ↦ by rw [successors_union h hq hd, List.mem_append]
  constructor
  · intro hab
    have hleads := pathExists_iff.1 hab
    clear hab
    induction hleads with
    | single hab =>
      exact ((hstep _ _).1 hab).imp pathExists_of_mem pathExists_of_mem
    | tail _ hbc ih =>
      rcases ih with hab | hab <;> rcases (hstep _ _).1 hbc with hbc | hbc
      · exact .inl (pathExists_trans hab (pathExists_of_mem hbc))
      · exact absurd (h.contains_of_pathExists hab).2 (hd _ (hq.contains_of_mem hbc).1)
      · exact absurd (h.contains_of_mem hbc).1 (hd _ (hq.contains_of_pathExists hab).2)
      · exact .inr (pathExists_trans hab (pathExists_of_mem hbc))
  · simp only [pathExists_iff]
    rintro (hab | hab)
    · exact Relation.TransGen.mono (fun _ _ hij ↦ (hstep _ _).2 (.inl hij)) _ _ hab
    · exact Relation.TransGen.mono (fun _ _ hij ↦ (hstep _ _).2 (.inr hij)) _ _ hab

theorem Linked.acyclic_union_iff : (p.union q).Acyclic ↔ p.Acyclic ∧ q.Acyclic := by
  simp only [Acyclic, h.pathExists_union_iff hq hd, not_or, forall_and]

/-- Between operators of one plan, paths lead as they led. -/
theorem Linked.pathExists_union_left {a : Key} (ha : p.contains a) (b : Key) :
    (p.union q).pathExists a b = p.pathExists a b := by
  have hno : ¬q.pathExists a b := fun hab ↦ hd a (hq.contains_of_pathExists hab).1 ha
  rw [Bool.eq_iff_iff, h.pathExists_union_iff hq hd, or_iff_left hno]

/-- **Merged plans do not interfere.** For all plans whose edges are in order, whether there are
cycles or not, and that have no key in common: they can be merged either way, with the same result.
A built-in walk of it succeeds if and only if it does on both plans, and it lists the operators of
each in the order in which a walk of that plan alone lists them. Paths between operators of the same
plan are the ones that there were, and none leads from one plan to the other. -/
theorem merge_keeps_plans_apart :
    (p.merge q = ⟨.ok (), p.union q⟩ ∧ q.merge p = ⟨.ok (), p.union q⟩) ∧
    (∀ order : WalkOrder,
      ((∃ ks, order.walker.walk (p.union q) = .ok ks) ↔
        (∃ ks, order.walker.walk p = .ok ks) ∧ ∃ ks, order.walker.walk q = .ok ks) ∧
      ∀ ks, order.walker.walk (p.union q) = .ok ks →
        order.walker.walk p = .ok (ks.filter p.contains) ∧
        order.walker.walk q = .ok (ks.filter q.contains)) ∧
    (∀ a b, p.contains a → p.contains b → (p.union q).pathExists a b = p.pathExists a b) ∧
    (∀ a b, q.contains a → q.contains b → (p.union q).pathExists a b = q.pathExists a b) ∧
    ∀ a b, p.contains a → q.contains b →
      (p.union q).pathExists a b = false ∧ (p.union q).pathExists b a = false := by
  have hd' : ∀ k, p.contains k → ¬q.contains k := fun k hk hk' ↦ hd k hk' hk
  have hcomm : p.union q = q.union p := h.union_comm hq hd
  have hu := h.union hq hd
  refine ⟨⟨merge_eq_union hd, hcomm ▸ merge_eq_union hd'⟩, fun order ↦ ⟨?_, fun ks hks ↦ ?_⟩,
    fun a b ha _ ↦ h.pathExists_union_left hq hd ha b,
    fun a b ha _ ↦ hcomm ▸ hq.pathExists_union_left h hd' ha b, fun a b ha hb ↦ ⟨?_, ?_⟩⟩
  · rw [WalkOrder.exists_walk_iff hu, WalkOrder.exists_walk_iff h, WalkOrder.exists_walk_iff hq,
      h.acyclic_union_iff hq hd, or_and_left]
  · have hleft := WalkOrder.walk_induced hu (h.detached_union hq hd) hks
    rw [hcomm] at hu hks
    have hright := WalkOrder.walk_induced hu (hq.detached_union h hd') hks
    rw [h.induced_union_left hq hd] at hleft
    rw [hq.induced_union_left h hd'] at hright
    exact ⟨hleft, hright⟩
  · rw [h.pathExists_union_left hq hd ha, Bool.eq_false_iff]
    exact fun hab ↦ hd b hb (h.contains_of_pathExists hab).2
  · rw [hcomm, hq.pathExists_union_left h hd' hb, Bool.eq_false_iff]
    exact fun hba ↦ hd a (hq.contains_of_pathExists hba).2 ha

end Disjoint

/-- A source feeds a split, and this a sink. -/
def warp : Plan :=
  let read : Operator := ⟨⟨"loom", 0⟩, "read", .source, false, false⟩
  let save : Operator := ⟨⟨"loom", 2⟩, "save", .sink, false, false⟩
  let part : Operator := ⟨⟨"loom", 4⟩, "part", .split, false, true⟩
  let bare := (((∅ : Plan).add read).plan.add save).plan.add part |>.plan
  ((bare.connect read.key part.key).plan.connect part.key save.key).plan

/-- A source feeds a union, this a split, and the split the union again. The keys alternate with
those of the warp. -/
def weft : Plan :=
  let read : Operator := ⟨⟨"loom", 1⟩, "read", .source, false, false⟩
  let meet : Operator := ⟨⟨"loom", 3⟩, "meet", .union, true, false⟩
  let part : Operator := ⟨⟨"loom", 5⟩, "part", .split, false, true⟩
  let bare := (((∅ : Plan).add read).plan.add meet).plan.add part |>.plan
  (((bare.connect read.key meet.key).plan.connect meet.key part.key).plan.connect
    part.key meet.key).plan

/-- In the warp merged with the fork, operators of both wait in one queue. The warp merged with the
weft has a cycle and cannot be ordered, but depth-first walks go through. -/
theorem merge_keeps_plans_apart_warp :
    (warp.Linked ∧ fork.Linked ∧ (∀ k, fork.contains k → ¬warp.contains k) ∧
      Walker.dependency.walk (warp.union fork) =
        .ok [⟨"flow", 0⟩, ⟨"loom", 0⟩, ⟨"flow", 1⟩, ⟨"loom", 4⟩, ⟨"flow", 2⟩, ⟨"flow", 3⟩,
          ⟨"loom", 2⟩] ∧
      Walker.dependency.walk warp = .ok [⟨"loom", 0⟩, ⟨"loom", 4⟩, ⟨"loom", 2⟩] ∧
      Walker.dependency.walk fork =
        .ok [⟨"flow", 0⟩, ⟨"flow", 1⟩, ⟨"flow", 2⟩, ⟨"flow", 3⟩]) ∧
    weft.Linked ∧ (∀ k, weft.contains k → ¬warp.contains k) ∧
      Walker.depthFirst.walk (warp.union weft) =
        .ok [⟨"loom", 0⟩, ⟨"loom", 4⟩, ⟨"loom", 2⟩, ⟨"loom", 1⟩, ⟨"loom", 3⟩, ⟨"loom", 5⟩] ∧
      Walker.depthFirst.walk weft = .ok [⟨"loom", 1⟩, ⟨"loom", 3⟩, ⟨"loom", 5⟩] ∧
      ¬∃ ks, Walker.dependency.walk (warp.union weft) = .ok ks := by
  have hwarp : warp.Linked := (checkInvariants_eq_ok_iff.1 (by decide)).1
  have hfork : fork.Linked := (checkInvariants_eq_ok_iff.1 (by decide)).1
  have hweft : weft.Linked := (checkInvariants_eq_ok_iff.1 (by decide)).1
  have hd : ∀ k, fork.contains k → ¬warp.contains k := checkMerge_eq_ok_iff.1 (by decide)
  have hd' : ∀ k, weft.contains k → ¬warp.contains k := checkMerge_eq_ok_iff.1 (by decide)
  have hwalk : Walker.dependency.walk (warp.union fork) =
      .ok [⟨"flow", 0⟩, ⟨"loom", 0⟩, ⟨"flow", 1⟩, ⟨"loom", 4⟩, ⟨"flow", 2⟩, ⟨"flow", 3⟩,
        ⟨"loom", 2⟩] := by cbv
  have hwalk' : Walker.depthFirst.walk (warp.union weft) =
      .ok [⟨"loom", 0⟩, ⟨"loom", 4⟩, ⟨"loom", 2⟩, ⟨"loom", 1⟩, ⟨"loom", 3⟩, ⟨"loom", 5⟩] := by
    cbv
  have hcyclic : ¬weft.Acyclic := fun hacyclic ↦ hacyclic ⟨"loom", 3⟩ (by cbv)
  obtain ⟨-, hwalks, -⟩ := merge_keeps_plans_apart hwarp hfork hd
  obtain ⟨-, hwalks', -⟩ := merge_keeps_plans_apart hwarp hweft hd'
  refine ⟨⟨hwarp, hfork, hd, hwalk, ?_, ?_⟩, hweft, hd', hwalk', ?_, fun hks ↦ ?_⟩
  · exact ((hwalks .dependency).2 _ hwalk).1.trans (by cbv)
  · exact ((hwalks .dependency).2 _ hwalk).2.trans (by cbv)
  · exact ((hwalks' .depthFirst).2 _ hwalk').2.trans (by cbv)
  · exact hcyclic (hweft.dependencyOrder_isOk_iff.1 ((hwalks' .dependency).1.1 hks).2)

end Plan

end Dataflow
