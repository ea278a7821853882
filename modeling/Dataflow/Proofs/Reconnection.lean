import Dataflow.Proofs.Survivors

/-!
# How a gap is closed

`Plan.removeAndReconnect` takes an operator out and joins what fed it to what it fed. `ClosesGap`
says what becomes of each list of neighbours when it goes through. Lists in which the operator stood
are cut at its place, and what is spliced in stands between the two parts: in a list of successors
the successors of the operator, in a list of predecessors its predecessor, if there is one. All
other entries of the two tables are the ones that were there.

That these lists make up a plan whose edges are in order is due to the check that comes first. That
paths between other operators are neither gained nor lost is a matter of the lists alone
(`Linked.pathExists_bypass_iff`), and holds as well where the operator lies on a cycle: the cycle
is then shorter by one, and it is still a cycle (`ClosesGap.acyclic_iff`).
-/

namespace Dataflow

namespace Plan

variable {p q : Plan} {k : Key}

/-- **The gap is closed.** `q` is `p` without `k`, and with what fed `k`, if anything, feeding what
`k` fed, in the place of `k` at either end. -/
structure ClosesGap (p : Plan) (k : Key) (q : Plan) : Prop where
  /-- Exactly one operator is lost. -/
  operator?_eq : ∀ j, q.operator? j = if j = k then none else p.operator? j
  /-- At most one operator fed it. -/
  inDegree_le : p.inDegree k ≤ 1
  /-- That operator feeds the successors of `k`, in their order, where it fed `k`. -/
  successors_eq : ∀ before ∈ p.predecessors k, ∃ l r,
    p.successors before = l ++ k :: r ∧ q.successors before = l ++ p.successors k ++ r
  /-- They are fed by it where they were fed by `k`. -/
  predecessors_eq : ∀ before ∈ p.predecessors k, ∀ after ∈ p.successors k, ∃ l r,
    p.predecessors after = l ++ k :: r ∧ q.predecessors after = l ++ before :: r
  /-- If nothing fed `k`, they are fed by the others that they were fed by. -/
  predecessors_eq_of_root : p.predecessors k = [] → ∀ after ∈ p.successors k, ∃ l r,
    p.predecessors after = l ++ k :: r ∧ q.predecessors after = l ++ r
  /-- There is nothing left at `k`. -/
  get?_self : q.succs.get? k = none ∧ q.preds.get? k = none
  /-- The other entries are the ones that were there. -/
  get?_succs : ∀ j, j ≠ k → j ∉ p.predecessors k → q.succs.get? j = p.succs.get? j
  get?_preds : ∀ j, j ≠ k → j ∉ p.successors k → q.preds.get? j = p.preds.get? j
  /-- The edges are in order; in particular no empty list is kept. -/
  linked : q.Linked
  /-- Paths between the others are neither gained nor lost. -/
  pathExists_iff : ∀ a b, a ≠ k → b ≠ k → (q.pathExists a b ↔ p.pathExists a b)

/-! ### Lists -/

/-- A list of successors, cut at `k`. -/
theorem Linked.cut_successors (h : p.Linked) (hk : p.inDegree k ≤ 1) {before : Key}
    (hbefore : before ∈ p.predecessors k) : ∃ l r,
      p.successors before = l ++ k :: r ∧
        (p.bypass k).successors before = l ++ p.successors k ++ r := by
  obtain ⟨l, r, hcut, hl, -⟩ := Adjacency.exists_cut (h.nodup_successors before)
    ((h.mem_successors_iff before k).2 hbefore)
  refine ⟨l, r, hcut, ?_⟩
  rw [successors_bypass h hk, if_neg (h.ne_of_mem_predecessors hbefore), hcut,
    Adjacency.replaceFirst_append_cons _ _ hl]

/-- A list of predecessors, cut at `k`. Those of `k` are one or none. -/
theorem Linked.cut_predecessors (h : p.Linked) (hk : p.inDegree k ≤ 1) {after : Key}
    (hafter : after ∈ p.successors k) : ∃ l r,
      p.predecessors after = l ++ k :: r ∧
        (p.bypass k).predecessors after = l ++ p.predecessors k ++ r := by
  obtain ⟨l, r, hcut, hl, -⟩ := Adjacency.exists_cut (h.nodup_predecessors after)
    ((h.mem_successors_iff k after).1 hafter)
  refine ⟨l, r, hcut, ?_⟩
  rw [predecessors_bypass h hk, if_neg (h.ne_of_mem_successors hafter), hcut,
    Adjacency.replaceFirst_append_cons _ _ hl]

/-- Where `k` did not stand, nothing is spliced in. -/
theorem Linked.successors_bypass_of_not_mem (h : p.Linked) (hk : p.inDegree k ≤ 1) {j : Key}
    (hj : j ≠ k) (hnot : j ∉ p.predecessors k) : (p.bypass k).successors j = p.successors j := by
  rw [← h.mem_successors_iff] at hnot
  rw [successors_bypass h hk, if_neg hj, Adjacency.replaceFirst_of_not_mem _ hnot]

theorem Linked.predecessors_bypass_of_not_mem (h : p.Linked) (hk : p.inDegree k ≤ 1) {j : Key}
    (hj : j ≠ k) (hnot : j ∉ p.successors k) :
    (p.bypass k).predecessors j = p.predecessors j := by
  rw [h.mem_successors_iff] at hnot
  rw [predecessors_bypass h hk, if_neg hj, Adjacency.replaceFirst_of_not_mem _ hnot]

/-! ### Cycles -/

/-- A cycle through `k` passes another operator, which feeds it. -/
theorem Linked.exists_pathExists_self (h : p.Linked) (hcycle : p.pathExists k k) :
    ∃ j, j ≠ k ∧ p.pathExists j j := by
  obtain ⟨j, hkj, hjk⟩ := Relation.TransGen.tail'_iff.1 (pathExists_iff.1 hcycle)
  have hstep : k ∈ p.successors j := hjk
  have hj : j ≠ k := (h.ne_of_mem_successors hstep).symm
  rcases Relation.reflTransGen_iff_eq_or_transGen.1 hkj with he | hkj
  · exact absurd he hj
  · exact ⟨j, hj, pathExists_trans (pathExists_of_mem hstep) (pathExists_iff.2 hkj)⟩

/-- Whatever cycle there is, it passes an operator other than `k`. -/
theorem Linked.exists_cycle_ne (h : p.Linked) {j : Key} (hcycle : p.pathExists j j) (k : Key) :
    ∃ i, i ≠ k ∧ p.pathExists i i := by
  by_cases he : j = k
  · exact h.exists_pathExists_self (he ▸ hcycle)
  · exact ⟨j, he, hcycle⟩

/-- **No cycle is closed and none is opened.** -/
theorem ClosesGap.acyclic_iff (hgap : p.ClosesGap k q) (h : p.Linked) : q.Acyclic ↔ p.Acyclic := by
  have hk : ¬q.contains k := by
    rw [contains_iff, hgap.operator?_eq, if_pos rfl]
    exact nofun
  constructor
  · intro hq j hj
    obtain ⟨i, hi, hcycle⟩ := h.exists_cycle_ne hj k
    exact hq i ((hgap.pathExists_iff i i hi hi).2 hcycle)
  · intro hp j hj
    have hne : j ≠ k := fun he ↦ hk (he ▸ (hgap.linked.contains_of_pathExists hj).1)
    exact hp j ((hgap.pathExists_iff j j hne hne).1 hj)

/-! ### The edit -/

theorem Linked.closesGap_bypass (h : p.Linked) (hk : p.inDegree k ≤ 1)
    (hlinked : (p.bypass k).Linked) : p.ClosesGap k (p.bypass k) where
  operator?_eq := operator?_bypass k
  inDegree_le := hk
  successors_eq _ hbefore := h.cut_successors hk hbefore
  predecessors_eq before hbefore after hafter := by
    obtain ⟨l, r, hcut, hspliced⟩ := h.cut_predecessors hk hafter
    have hone : p.predecessors k = [before] := by
      rcases predecessors_eq_nil_or_singleton hk with hnil | ⟨j, hj⟩
      · rw [hnil] at hbefore
        cases hbefore
      · rw [hj, List.mem_singleton] at hbefore
        rw [hj, hbefore]
    exact ⟨l, r, hcut, by rw [hspliced, hone, List.append_assoc, List.singleton_append]⟩
  predecessors_eq_of_root hroot after hafter := by
    obtain ⟨l, r, hcut, hspliced⟩ := h.cut_predecessors hk hafter
    exact ⟨l, r, hcut, by rw [hspliced, hroot, List.append_nil]⟩
  get?_self := by
    have hsuccs : (p.bypass k).successors k = [] := by rw [successors_bypass h hk, if_pos rfl]
    have hpreds : (p.bypass k).predecessors k = [] := by rw [predecessors_bypass h hk, if_pos rfl]
    exact ⟨Adjacency.get?_eq_of_neighbours_eq hlinked.pruned_succs .empty hsuccs,
      Adjacency.get?_eq_of_neighbours_eq hlinked.pruned_preds .empty hpreds⟩
  get?_succs _ hj hnot := Adjacency.get?_eq_of_neighbours_eq hlinked.pruned_succs h.pruned_succs
    (h.successors_bypass_of_not_mem hk hj hnot)
  get?_preds _ hj hnot := Adjacency.get?_eq_of_neighbours_eq hlinked.pruned_preds h.pruned_preds
    (h.predecessors_bypass_of_not_mem hk hj hnot)
  linked := hlinked
  pathExists_iff _ _ ha hb := h.pathExists_bypass_iff hk ha hb

/-- **Removal with reconnection closes the gap.** On every plan whose edges are in order, whether
there are cycles or not: if the removal goes through, it hands back the operator, the lists of
neighbours are spliced where the operator stood and are otherwise the same, and paths between the
other operators are neither gained nor lost; nor are cycles. -/
theorem reconnection_closes_gap (h : p.Linked) {op : Operator}
    (hok : (p.removeAndReconnect k).answer = .ok op) :
    p.operator? k = some op ∧ p.ClosesGap k (p.removeAndReconnect k).plan ∧
      ((p.removeAndReconnect k).plan.Acyclic ↔ p.Acyclic) := by
  obtain ⟨hcheck, hop⟩ := removeAndReconnect_answer_eq_ok_iff.1 hok
  have hlinked := h.removeAndReconnect k
  obtain ⟨op', heq⟩ := removeAndReconnect_eq hcheck
  rw [heq] at hlinked ⊢
  have hgap := h.closesGap_bypass (checkBypass_eq_ok_iff.1 hcheck).2.1 hlinked
  exact ⟨hop, hgap, hgap.acyclic_iff h⟩

/-- A hub that feeds a relay between two others, and is fed by one of the two operators behind the
relay; the other one is fed from the side as well. -/
def knot : Plan :=
  let hub : Operator := ⟨⟨"knot", 0⟩, "hub", .union, true, true⟩
  let relay : Operator := ⟨⟨"knot", 1⟩, "relay", .split, false, true⟩
  let west : Operator := ⟨⟨"knot", 2⟩, "west", .transform, false, false⟩
  let east : Operator := ⟨⟨"knot", 3⟩, "east", .sink, false, false⟩
  let back : Operator := ⟨⟨"knot", 4⟩, "back", .transform, false, false⟩
  let meet : Operator := ⟨⟨"knot", 5⟩, "meet", .union, true, false⟩
  let ends := ((((∅ : Plan).add hub).plan.add relay).plan.add west).plan
  let bare := (((ends.add east).plan.add back).plan.add meet).plan
  let fan := (((bare.connect hub.key west.key).plan.connect hub.key relay.key).plan.connect
    hub.key east.key).plan
  let side := (fan.connect west.key meet.key).plan
  let behind := ((side.connect relay.key back.key).plan.connect relay.key meet.key).plan
  (behind.connect back.key hub.key).plan

/-- In the knot, the relay lies on a cycle and goes through the hub. What it fed is now fed by the
hub, between the other two, and the hub is still on a cycle. -/
theorem reconnection_closes_gap_knot :
    knot.Linked ∧ knot.pathExists ⟨"knot", 1⟩ ⟨"knot", 1⟩ ∧
      (knot.removeAndReconnect ⟨"knot", 1⟩).plan.successors ⟨"knot", 0⟩ =
        [⟨"knot", 2⟩, ⟨"knot", 4⟩, ⟨"knot", 5⟩, ⟨"knot", 3⟩] ∧
      (knot.removeAndReconnect ⟨"knot", 1⟩).plan.predecessors ⟨"knot", 5⟩ =
        [⟨"knot", 2⟩, ⟨"knot", 0⟩] ∧
      (knot.removeAndReconnect ⟨"knot", 1⟩).plan.pathExists ⟨"knot", 0⟩ ⟨"knot", 0⟩ ∧
      knot.ClosesGap ⟨"knot", 1⟩ (knot.removeAndReconnect ⟨"knot", 1⟩).plan := by
  have h : knot.Linked := (checkInvariants_eq_ok_iff.1 (by decide)).1
  have hok : (knot.removeAndReconnect ⟨"knot", 1⟩).answer =
      .ok ⟨⟨"knot", 1⟩, "relay", .split, false, true⟩ := by decide
  obtain ⟨-, hgap, -⟩ := reconnection_closes_gap h hok
  have hhub : knot.pathExists ⟨"knot", 0⟩ ⟨"knot", 0⟩ := by cbv
  refine ⟨h, by cbv, by decide, by decide, ?_, hgap⟩
  exact (hgap.pathExists_iff _ _ (by decide) (by decide)).2 hhub

end Plan

end Dataflow
