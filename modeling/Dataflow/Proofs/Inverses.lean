import Dataflow.Proofs.Insertion

/-!
# Edits that undo each other

An operator that is put into an edge and taken out with reconnection leaves nothing behind, and an
operator with one predecessor and one successor that is taken out with reconnection can be put back
where it was. What is restored is the plan itself, with the order inside every list and with no
entry left over.

The two edits change lists by different means, and meet in a renaming that is taken back
(`Adjacency.rename_rename`). That the second of them goes through need not be argued from one guard
of its check after the other. A check asks for no more than that the plan it leads to is in order
(`checkBypass_eq_ok_iff_bypass`, `checkInsertBetween_eq_ok_iff_reroute`), and this plan is the one
from the outset.
-/

namespace Dataflow

namespace Adjacency

/-- The list of `j` once `k`, which stood between `near` and `far` alone, has been bypassed and the
edge between the two led over `k` again. -/
theorem rerouted_replaceFirst {l : List Key} {j near far k : Key} (hl : l.Nodup) (hnear : near ≠ k)
    (hk : j = k → l = [far]) (hj : j = near → far ∉ l) (hother : j ≠ near → j ≠ k → k ∉ l) :
    ((if j = near then rename far k (if j = k then [] else replaceFirst k [far] l)
        else if j = k then [] else replaceFirst k [far] l) ++ if j = k then [far] else []) = l := by
  by_cases he : j = k
  · have hne : j ≠ near := fun hn ↦ hnear (hn.symm.trans he)
    rw [if_neg hne, if_pos he, if_pos he, hk he, List.nil_append]
  · rw [if_neg he, if_neg he, List.append_nil]
    split
    next hn => rw [replaceFirst_singleton _ hl, rename_rename (hj hn)]
    next hn => exact replaceFirst_of_not_mem _ (hother hn he)

end Adjacency

namespace Plan

variable {p : Plan} {after before : Key} {op : Operator}

/-! ### In and out -/

section InAndOut

variable (h : p.Linked) (hedge : before ∈ p.successors after) (hnew : ¬p.contains op.key)

include h hedge hnew

theorem Linked.checkInsertBetween_put :
    (p.put op).checkInsertBetween after op.key before = .ok () := by
  have hends := h.contains_of_mem hedge
  have hsuccs : (p.put op).successors op.key = [] := h.successors_eq_nil hnew
  have hpreds : (p.put op).predecessors op.key = [] := h.predecessors_eq_nil hnew
  have hout : (p.put op).outDegree op.key = 0 := congrArg List.length hsuccs
  have hin : (p.put op).inDegree op.key = 0 := congrArg List.length hpreds
  refine checkInsertBetween_eq_ok_iff.2 ⟨contains_put.2 (.inr hends.1), op, ?_,
    contains_put.2 (.inr hends.2), hedge, ⟨?_, ?_⟩, ?_, ?_, ?_, ?_⟩
  · rw [operator?_put, if_pos rfl]
  · exact fun he ↦ hnew (he ▸ hends.1)
  · exact fun he ↦ hnew (he ▸ hends.2)
  · exact fun hpos ↦ absurd hin (Nat.ne_of_gt hpos)
  · exact fun hpos ↦ absurd hout (Nat.ne_of_gt hpos)
  · exact fun hmem ↦ hnew (h.contains_of_mem hmem).2
  · rw [hsuccs]
    exact List.not_mem_nil

/-- Insertion of a new operator is undone by bypassing it. -/
theorem Linked.bypass_reroute_put (hq : ((p.put op).reroute after op.key before).Linked) :
    ((p.put op).reroute after op.key before).bypass op.key = p := by
  have hends := h.contains_of_mem hedge
  have hne : op.key ≠ after := fun he ↦ hnew (he ▸ hends.1)
  have hne' : op.key ≠ before := fun he ↦ hnew (he ▸ hends.2)
  have hsuccs : (p.put op).successors op.key = [] := h.successors_eq_nil hnew
  have hpreds : (p.put op).predecessors op.key = [] := h.predecessors_eq_nil hnew
  refine h.eq_of_lookups (hq.pruned_succs_bypass _) (hq.pruned_preds_bypass _) (fun j ↦ ?_)
    ((h.put op).successors_bypass_reroute hne hne' hsuccs hpreds hq)
    ((h.put op).predecessors_bypass_reroute hne' hsuccs hpreds hq)
  rw [operator?_bypass]
  split
  next hj => rw [hj, operator?_eq_none hnew]
  next hj => exact (operator?_put op j).trans (if_neg hj)

end InAndOut

/-! ### Out and in -/

section OutAndIn

variable (h : p.Linked) (hop : p.operator? op.key = some op)
  (hpreds : p.predecessors op.key = [before]) (hsuccs : p.successors op.key = [after])
  (hnot : after ∉ p.successors before)

include h hop hpreds hsuccs hnot

/-- Bypassing an operator is undone by leading the edge that closes the gap over it. -/
theorem Linked.reroute_put_bypass : ((p.bypass op.key).put op).reroute before op.key after = p := by
  have hk : p.inDegree op.key ≤ 1 := Nat.le_of_eq (congrArg List.length hpreds)
  have hne : before ≠ op.key := h.ne_of_mem_predecessors (by rw [hpreds, List.mem_singleton])
  have hne' : after ≠ op.key := h.ne_of_mem_successors (by rw [hsuccs, List.mem_singleton])
  refine h.eq_of_lookups (((h.pruned_succs_bypass _).update _ _).update _ _)
    (((h.pruned_preds_bypass _).update _ _).update _ _) (fun j ↦ ?_) (fun j ↦ ?_) fun j ↦ ?_
  · refine (operator?_put op j).trans ?_
    rw [operator?_bypass]
    split
    next hj => rw [hj, hop]
    next hj => rfl
  · have hother : j ≠ before → j ≠ op.key → op.key ∉ p.successors j := fun hj _ hmem ↦ by
      rw [h.mem_successors_iff, hpreds, List.mem_singleton] at hmem
      exact hj hmem
    rw [successors_reroute]
    show ((if j = before then Adjacency.rename after op.key ((p.bypass op.key).successors j)
      else (p.bypass op.key).successors j) ++ _) = _
    rw [successors_bypass h hk, hsuccs]
    exact Adjacency.rerouted_replaceFirst (h.nodup_successors j) hne (fun hj ↦ hj ▸ hsuccs)
      (fun hj ↦ hj ▸ hnot) hother
  · have hother : j ≠ after → j ≠ op.key → op.key ∉ p.predecessors j := fun hj _ hmem ↦ by
      rw [← h.mem_successors_iff, hsuccs, List.mem_singleton] at hmem
      exact hj hmem
    rw [h.mem_successors_iff] at hnot
    rw [predecessors_reroute]
    show ((if j = after then Adjacency.rename before op.key ((p.bypass op.key).predecessors j)
      else (p.bypass op.key).predecessors j) ++ _) = _
    rw [predecessors_bypass h hk, hpreds]
    exact Adjacency.rerouted_replaceFirst (h.nodup_predecessors j) hne' (fun hj ↦ hj ▸ hpreds)
      (fun hj ↦ hj ▸ hnot) hother

end OutAndIn

/-! ### The edits -/

section Edits

variable (h : p.Linked) (ha : p.RespectsArity)

include h

theorem Linked.insertBetween_put (hedge : before ∈ p.successors after) (hnew : ¬p.contains op.key) :
    (p.put op).insertBetween after op.key before =
      ⟨.ok (), (p.put op).reroute after op.key before⟩ :=
  commit_of_ok (h.checkInsertBetween_put hedge hnew)

include ha

/-- The plan to which bypassing leads is the old one, so there is nothing to be said against it. -/
theorem Linked.removeAndReconnect_reroute_put (hedge : before ∈ p.successors after)
    (hnew : ¬p.contains op.key) :
    ((p.put op).reroute after op.key before).removeAndReconnect op.key = ⟨.ok op, p⟩ := by
  have hcheck := h.checkInsertBetween_put hedge hnew
  obtain ⟨-, hk, -, -, hq⟩ :=
    (checkInsertBetween_eq_ok_iff_reroute (h.put op) (ha.put h hnew) ..).1 hcheck
  obtain ⟨hl, hla⟩ := checkInvariants_eq_ok_iff.1 hq
  have hback := h.bypass_reroute_put hedge hnew hl
  have hne' : op.key ≠ before := fun he ↦ hnew (he ▸ (h.contains_of_mem hedge).2)
  have hin : ((p.put op).reroute after op.key before).inDegree op.key ≤ 1 :=
    inDegree_reroute_isolated hne' (h.predecessors_eq_nil hnew)
  have hbypass : ((p.put op).reroute after op.key before).checkBypass op.key = .ok () := by
    refine (checkBypass_eq_ok_iff_bypass hl hla op.key).2 ⟨hk, hin, ?_⟩
    rw [hback]
    exact checkInvariants_eq_ok_iff.2 ⟨h, ha⟩
  have hop : ((p.put op).reroute after op.key before).operator? op.key = some op :=
    (operator?_put op op.key).trans (if_pos rfl)
  exact (commit_of_ok (removeAndReconnect_answer_eq_ok_iff.2 ⟨hbypass, hop⟩)).trans
    (congrArg _ hback)

/-- The plan to which the insertion leads is the old one, so there is nothing to be said against
it. -/
theorem Linked.insertBetween_put_bypass (hpreds : p.predecessors op.key = [before])
    (hsuccs : p.successors op.key = [after])
    (hok : (p.removeAndReconnect op.key).answer = .ok op) :
    ((p.bypass op.key).put op).insertBetween before op.key after = ⟨.ok (), p⟩ := by
  obtain ⟨hcheck, hop⟩ := removeAndReconnect_answer_eq_ok_iff.1 hok
  obtain ⟨-, hk, hq⟩ := (checkBypass_eq_ok_iff_bypass h ha op.key).1 hcheck
  obtain ⟨hl, hla⟩ := checkInvariants_eq_ok_iff.1 hq
  have hbefore : before ∈ p.predecessors op.key := by rw [hpreds, List.mem_singleton]
  have hafter : after ∈ p.successors op.key := by rw [hsuccs, List.mem_singleton]
  have hnot : after ∉ p.successors before :=
    ((h.bypass_iff hk).1 hl before ((h.mem_successors_iff ..).2 hbefore)).2 after hafter
  have hback := h.reroute_put_bypass hop hpreds hsuccs hnot
  have hfree := not_contains_bypass p op.key
  have hedge : after ∈ (p.bypass op.key).successors before := by
    obtain ⟨l, r, -, hspliced⟩ := h.cut_successors hk hbefore
    rw [hspliced, hsuccs]
    exact List.mem_append_left _ (List.mem_append_right _ List.mem_cons_self)
  have hends := hl.contains_of_mem hedge
  have hinsert : ((p.bypass op.key).put op).checkInsertBetween before op.key after = .ok () := by
    refine (checkInsertBetween_eq_ok_iff_reroute (hl.put op) (hla.put hl hfree) ..).2
      ⟨contains_put.2 (.inr hends.1), contains_put.2 (.inl rfl), contains_put.2 (.inr hends.2),
        hedge, ?_⟩
    rw [hback]
    exact checkInvariants_eq_ok_iff.2 ⟨h, ha⟩
  exact (commit_of_ok hinsert).trans (congrArg _ hback)

end Edits

/-- **Insertion and removal with reconnection undo each other.** On every plan that passes
`checkInvariants`: a new operator can be put into any edge and taken out again, and an operator with
one predecessor and one successor that can be taken out can be put back between them. In either case
the plan is the one from the outset. -/
theorem insertion_and_reconnection_undo (h : p.checkInvariants = .ok ()) :
    (∀ after before op, p.hasEdge after before → ¬p.contains op.key →
      (p.add op).answer = .ok op.key ∧
      ((p.add op).plan.insertBetween after op.key before).answer = .ok () ∧
      ((p.add op).plan.insertBetween after op.key before).plan.removeAndReconnect op.key =
        ⟨.ok op, p⟩) ∧
    ∀ before after op, p.predecessors op.key = [before] → p.successors op.key = [after] →
      (p.removeAndReconnect op.key).answer = .ok op →
      ((p.removeAndReconnect op.key).plan.add op).answer = .ok op.key ∧
      ((p.removeAndReconnect op.key).plan.add op).plan.insertBetween before op.key after =
        ⟨.ok (), p⟩ := by
  obtain ⟨hl, ha⟩ := checkInvariants_eq_ok_iff.1 h
  refine ⟨fun after before op hedge hnew ↦ ?_, fun before after op hpreds hsuccs hok ↦ ?_⟩
  · rw [hasEdge_iff] at hedge
    rw [add_of_free (Bool.eq_false_iff.2 hnew)]
    dsimp only
    rw [hl.insertBetween_put hedge hnew]
    exact ⟨rfl, rfl, hl.removeAndReconnect_reroute_put ha hedge hnew⟩
  · have hout : p.removeAndReconnect op.key = ⟨.ok op, p.bypass op.key⟩ := commit_of_ok hok
    rw [hout, add_of_free (Bool.eq_false_iff.2 (not_contains_bypass p op.key))]
    exact ⟨rfl, hl.insertBetween_put_bypass ha hpreds hsuccs hok⟩

/-- In the knot, an operator is put between the hub and the relay and taken out again, and the west
is taken out from between the hub and the meet, where it stood first in both lists, and put back. -/
theorem insertion_and_reconnection_undo_knot :
    knot.checkInvariants = .ok () ∧
      ((knot.add ⟨⟨"knot", 6⟩, "new", .transform, false, false⟩).plan.insertBetween ⟨"knot", 0⟩
          ⟨"knot", 6⟩ ⟨"knot", 1⟩).plan.removeAndReconnect ⟨"knot", 6⟩ =
        ⟨.ok ⟨⟨"knot", 6⟩, "new", .transform, false, false⟩, knot⟩ ∧
      ((knot.removeAndReconnect ⟨"knot", 2⟩).plan.add
          ⟨⟨"knot", 2⟩, "west", .transform, false, false⟩).plan.insertBetween ⟨"knot", 0⟩
        ⟨"knot", 2⟩ ⟨"knot", 5⟩ = ⟨.ok (), knot⟩ := by
  have h : knot.checkInvariants = .ok () := by decide
  obtain ⟨hin, hout⟩ := insertion_and_reconnection_undo h
  obtain ⟨-, -, hundone⟩ := hin ⟨"knot", 0⟩ ⟨"knot", 1⟩
    ⟨⟨"knot", 6⟩, "new", .transform, false, false⟩ (by decide) (by decide)
  obtain ⟨-, hredone⟩ := hout ⟨"knot", 0⟩ ⟨"knot", 5⟩
    ⟨⟨"knot", 2⟩, "west", .transform, false, false⟩ (by decide) (by decide) (by decide)
  exact ⟨h, hundone, hredone⟩

end Plan

end Dataflow
