import Dataflow.Proofs.Reconnection

/-!
# How an edge is led over an operator

`Plan.insertBetween` puts an operator into an edge. `LeadsOver` says what becomes of the edges when
it goes through. Whatever the operator has been joined to before, whether it lies above or below the
two ends or on a cycle with them, one edge is lost and two are gained, at definite places: the
operator stands where the ends of the edge saw each other, and they come last in its own lists.

As far as paths go, the lost edge is not missed, because the two new ones lead from its source to
its target. So paths after the insertion are paths along the old edges and the new ones, and none is
lost (`pathExists_reroute_iff`). Some may be gained, but not if the operator had no edges:
bypassing it again would then bring back the old lists (`Linked.successors_bypass_reroute`), and
bypassing gains and loses no paths between others.
-/

namespace Dataflow

/-! ### A key led into a list and taken out again -/

namespace Adjacency

/-- The list of `j` once the edge between `near` and `far` has been led over `between`, and
`between` bypassed. -/
theorem replaceFirst_rerouted {l : List Key} {j near far between : Key} (hl : l.Nodup)
    (hbetween : between ∉ l) :
    replaceFirst between [far] (if j = near then rename far between l else l) = l := by
  split
  · rw [replaceFirst_singleton _ (nodup_rename hl hbetween), rename_rename hbetween]
  · exact replaceFirst_of_not_mem _ hbetween

end Adjacency

namespace Plan

variable {p q : Plan} {after between before : Key}

/-- An edge of the plan, or one of the two that lead from `after` over `between` to `before`. -/
def EdgeOrDetour (p : Plan) (after between before a b : Key) : Prop :=
  p.hasEdge a b ∨ a = after ∧ b = between ∨ a = between ∧ b = before

/-- **The edge is led over another operator.** `q` is `p` with `between` in the edge from `after` to
`before`. -/
structure LeadsOver (p : Plan) (after between before : Key) (q : Plan) : Prop where
  /-- The operators are the ones that were there. -/
  ops_eq : q.ops = p.ops
  /-- One edge is lost and two are gained. -/
  edge_iff : ∀ a b, q.hasEdge a b ↔ p.hasEdge a b ∧ ¬(a = after ∧ b = before) ∨
    a = after ∧ b = between ∨ a = between ∧ b = before
  /-- `after` feeds `between` at the place where it fed `before`. -/
  successors_after : ∃ l r,
    p.successors after = l ++ before :: r ∧ q.successors after = l ++ between :: r
  /-- `before` is fed by `between` at the place where it was fed by `after`. -/
  predecessors_before : ∃ l r,
    p.predecessors before = l ++ after :: r ∧ q.predecessors before = l ++ between :: r
  /-- What `between` feeds and is fed by stays, and the ends of the edge come last. -/
  successors_between : q.successors between = p.successors between ++ [before]
  predecessors_between : q.predecessors between = p.predecessors between ++ [after]
  /-- The other entries are the ones that were there. -/
  get?_succs : ∀ j, j ≠ after → j ≠ between → q.succs.get? j = p.succs.get? j
  get?_preds : ∀ j, j ≠ before → j ≠ between → q.preds.get? j = p.preds.get? j
  /-- The edges are in order; in particular no empty list is kept. -/
  linked : q.Linked
  /-- Paths are those along the old edges and the new ones. -/
  pathExists_iff : ∀ a b,
    q.pathExists a b ↔ Relation.TransGen (p.EdgeOrDetour after between before) a b

/-! ### Lists -/

theorem Linked.cut_reroute (h : p.Linked) (hne : between ≠ after)
    (hedge : before ∈ p.successors after) : ∃ l r, p.successors after = l ++ before :: r ∧
      (p.reroute after between before).successors after = l ++ between :: r := by
  obtain ⟨l, r, hcut, hl, hr⟩ := Adjacency.exists_cut (h.nodup_successors after) hedge
  refine ⟨l, r, hcut, ?_⟩
  rw [successors_reroute, if_pos rfl, if_neg hne.symm, List.append_nil, hcut,
    Adjacency.rename_append_cons _ hl hr]

theorem successors_reroute_between (hne : between ≠ after) :
    (p.reroute after between before).successors between = p.successors between ++ [before] := by
  rw [successors_reroute, if_neg hne, if_pos rfl]

theorem successors_reroute_of_ne {j : Key} (hj : j ≠ after) (hj' : j ≠ between) :
    (p.reroute after between before).successors j = p.successors j := by
  rw [successors_reroute, if_neg hj, if_neg hj', List.append_nil]

/-! ### Paths -/

theorem pathExists_reroute_iff (hedge : before ∈ p.successors after) {a b : Key} :
    (p.reroute after between before).pathExists a b ↔
      Relation.TransGen (p.EdgeOrDetour after between before) a b := by
  have hstep : ∀ {c d}, Adjacency.Step (p.reroute after between before).succs c d ↔
      d ∈ p.successors c ∧ ¬(c = after ∧ d = before) ∨ c = after ∧ d = between ∨
        c = between ∧ d = before := mem_successors_reroute hedge
  rw [Plan.pathExists_iff]
  constructor
  · refine Relation.TransGen.mono (fun c d hcd ↦ ?_) a b
    exact (hstep.1 hcd).imp_left fun hcd ↦ hasEdge_iff.2 hcd.1
  · refine Relation.TransGen.closed (fun c d hcd ↦ ?_) a b
    rcases hcd with hcd | hcd
    · by_cases hlost : c = after ∧ d = before
      · -- The edge that is lost is replaced by the detour.
        obtain ⟨rfl, rfl⟩ := hlost
        exact .tail (.single (hstep.2 (.inr (.inl ⟨rfl, rfl⟩)))) (hstep.2 (.inr (.inr ⟨rfl, rfl⟩)))
      · exact .single (hstep.2 (.inl ⟨hasEdge_iff.1 hcd, hlost⟩))
    · exact .single (hstep.2 (.inr hcd))

/-- **No path is lost.** -/
theorem LeadsOver.pathExists_of_pathExists (hover : p.LeadsOver after between before q) {a b : Key}
    (hab : p.pathExists a b) : q.pathExists a b := by
  refine (hover.pathExists_iff a b).2 ?_
  exact Relation.TransGen.mono (fun _ _ hcd ↦ .inl (hasEdge_iff.2 hcd)) a b
    (Plan.pathExists_iff.1 hab)

/-- Paths are a matter of the lists of successors. -/
theorem pathExists_congr (h : ∀ k, q.successors k = p.successors k) {a b : Key} :
    q.pathExists a b ↔ p.pathExists a b := by
  have hstep : Adjacency.Step q.succs = Adjacency.Step p.succs :=
    funext₂ fun c d ↦ congrArg (d ∈ ·) (h c)
  rw [Plan.pathExists_iff, Plan.pathExists_iff, Adjacency.Leads, Adjacency.Leads, hstep]

/-! ### An operator without edges -/

section Isolated

variable (h : p.Linked) (hne : between ≠ after) (hne' : between ≠ before)
  (hsuccs : p.successors between = []) (hpreds : p.predecessors between = [])
  (hq : (p.reroute after between before).Linked)

include h hpreds in
/-- What nothing feeds stands in no list of successors. -/
theorem Linked.not_mem_successors_of_root (j : Key) : between ∉ p.successors j := by
  rw [h.mem_successors_iff, hpreds]
  exact List.not_mem_nil

include hne' hpreds in
theorem predecessors_reroute_isolated :
    (p.reroute after between before).predecessors between = [after] := by
  rw [predecessors_reroute, if_neg hne', if_pos rfl, hpreds, List.nil_append]

include hne' hpreds in
theorem inDegree_reroute_isolated : (p.reroute after between before).inDegree between ≤ 1 :=
  Nat.le_of_eq (congrArg List.length (predecessors_reroute_isolated hne' hpreds))

include h hne' hsuccs hpreds hq

/-- **Bypassing takes an insertion back**, as far as predecessors go -/
theorem Linked.predecessors_bypass_reroute (j : Key) :
    ((p.reroute after between before).bypass between).predecessors j = p.predecessors j := by
  rw [predecessors_bypass hq (inDegree_reroute_isolated hne' hpreds),
    predecessors_reroute_isolated hne' hpreds, predecessors_reroute]
  by_cases hj : j = between
  · rw [if_pos hj, hj, hpreds]
  · rw [if_neg hj, if_neg hj, List.append_nil]
    exact Adjacency.replaceFirst_rerouted (h.nodup_predecessors j)
      (h.reversed.not_mem_successors_of_root hsuccs j)

include hne

/-- and as far as successors go. -/
theorem Linked.successors_bypass_reroute (j : Key) :
    ((p.reroute after between before).bypass between).successors j = p.successors j := by
  have hself : (p.reroute after between before).successors between = [before] := by
    rw [successors_reroute_between hne, hsuccs, List.nil_append]
  rw [successors_bypass hq (inDegree_reroute_isolated hne' hpreds), hself, successors_reroute]
  by_cases hj : j = between
  · rw [if_pos hj, hj, hsuccs]
  · rw [if_neg hj, if_neg hj, List.append_nil]
    exact Adjacency.replaceFirst_rerouted (h.nodup_successors j)
      (h.not_mem_successors_of_root hpreds j)

/-- So the insertion has made no path between other operators. -/
theorem Linked.pathExists_reroute_isolated_iff {a b : Key} (ha : a ≠ between) (hb : b ≠ between) :
    (p.reroute after between before).pathExists a b ↔ p.pathExists a b :=
  (hq.pathExists_bypass_iff (inDegree_reroute_isolated hne' hpreds) ha hb).symm.trans
    (pathExists_congr (h.successors_bypass_reroute hne hne' hsuccs hpreds hq))

end Isolated

/-- A cycle would pass an operator that was on one before. -/
theorem LeadsOver.acyclic_iff (hover : p.LeadsOver after between before q)
    (hpaths : ∀ a b, a ≠ between → b ≠ between → (q.pathExists a b ↔ p.pathExists a b)) :
    q.Acyclic ↔ p.Acyclic := by
  constructor
  · exact fun hq j hj ↦ hq j (hover.pathExists_of_pathExists hj)
  · intro hp j hj
    obtain ⟨i, hi, hcycle⟩ := hover.linked.exists_cycle_ne hj between
    exact hp i ((hpaths i i hi hi).1 hcycle)

/-! ### The edit -/

theorem Linked.leadsOver_reroute (h : p.Linked) (hedge : before ∈ p.successors after)
    (hne : between ≠ after) (hne' : between ≠ before)
    (hlinked : (p.reroute after between before).Linked) :
    p.LeadsOver after between before (p.reroute after between before) where
  ops_eq := rfl
  edge_iff a b := by
    rw [hasEdge_iff, hasEdge_iff]
    exact mem_successors_reroute hedge
  successors_after := h.cut_reroute hne hedge
  -- Turned round, the edge leads from `before` to `after`, and it is rerouted in the same way.
  predecessors_before := h.reversed.cut_reroute hne' ((h.mem_successors_iff _ _).1 hedge)
  successors_between := successors_reroute_between hne
  predecessors_between := successors_reroute_between (p := p.reversed) hne'
  get?_succs _ hj hj' := Adjacency.get?_eq_of_neighbours_eq hlinked.pruned_succs h.pruned_succs
    (successors_reroute_of_ne hj hj')
  get?_preds _ hj hj' := Adjacency.get?_eq_of_neighbours_eq hlinked.pruned_preds h.pruned_preds
    (successors_reroute_of_ne (p := p.reversed) hj hj')
  linked := hlinked
  pathExists_iff _ _ := pathExists_reroute_iff hedge

/-- **An insertion leads an edge over an operator.** On every plan whose edges are in order: if the
insertion goes through, the edge is led over the operator and all else stays, paths are those along
the old edges and the two new ones, and no path is lost. If the operator had no edges, no path
between others is gained either, and there is a cycle afterwards only if there was one before. -/
theorem insertion_leads_over (h : p.Linked)
    (hok : (p.insertBetween after between before).answer = .ok ()) :
    p.LeadsOver after between before (p.insertBetween after between before).plan ∧
      (∀ a b, p.pathExists a b → (p.insertBetween after between before).plan.pathExists a b) ∧
      (p.successors between = [] → p.predecessors between = [] →
        (∀ a b, a ≠ between → b ≠ between →
          ((p.insertBetween after between before).plan.pathExists a b ↔ p.pathExists a b)) ∧
        ((p.insertBetween after between before).plan.Acyclic ↔ p.Acyclic)) := by
  obtain ⟨-, -, -, -, hedge, ⟨hne, hne'⟩, -⟩ := checkInsertBetween_eq_ok_iff.1 hok
  have hlinked := h.insertBetween after between before
  have heq : p.insertBetween after between before = ⟨.ok (), p.reroute after between before⟩ :=
    commit_of_ok hok
  rw [heq] at hlinked ⊢
  have hover := h.leadsOver_reroute hedge hne hne' hlinked
  refine ⟨hover, fun _ _ ↦ hover.pathExists_of_pathExists, fun hsuccs hpreds ↦ ?_⟩
  have hpaths : ∀ a b, a ≠ between → b ≠ between →
      ((p.reroute after between before).pathExists a b ↔ p.pathExists a b) := fun _ _ ↦
    h.pathExists_reroute_isolated_iff hne hne' hsuccs hpreds hlinked
  exact ⟨hpaths, hover.acyclic_iff hpaths⟩

/-- The knot with its meet between the hub and the east. -/
def retied : Plan :=
  (knot.insertBetween ⟨"knot", 0⟩ ⟨"knot", 5⟩ ⟨"knot", 3⟩).plan

/-- The fork with a map beside it, which has no edges. -/
def spare : Plan :=
  (fork.add ⟨⟨"flow", 4⟩, "map", .transform, false, false⟩).plan

/-- The meet of the knot lies below the hub and has edges already. It comes last among what the hub
feeds, where the east was, and the west, which feeds it, can now reach the east. In the fork, the
map is put before the split, and there is still no cycle. -/
theorem insertion_leads_over_knot :
    knot.Linked ∧ knot.LeadsOver ⟨"knot", 0⟩ ⟨"knot", 5⟩ ⟨"knot", 3⟩ retied ∧
      retied.successors ⟨"knot", 0⟩ = [⟨"knot", 2⟩, ⟨"knot", 1⟩, ⟨"knot", 5⟩] ∧
      retied.predecessors ⟨"knot", 5⟩ = [⟨"knot", 2⟩, ⟨"knot", 1⟩, ⟨"knot", 0⟩] ∧
      knot.pathExists ⟨"knot", 2⟩ ⟨"knot", 3⟩ = false ∧
      retied.pathExists ⟨"knot", 2⟩ ⟨"knot", 3⟩ ∧
      (spare.insertBetween ⟨"flow", 0⟩ ⟨"flow", 4⟩ ⟨"flow", 1⟩).plan.Acyclic := by
  have h : knot.Linked := (checkInvariants_eq_ok_iff.1 (by decide)).1
  have hfork : fork.Linked := (checkInvariants_eq_ok_iff.1 (by decide)).1
  have hspare : spare.Linked := hfork.add _
  have hacyclic : spare.Acyclic := hfork.acyclic_iff_length.2 (by cbv)
  have hok : (knot.insertBetween ⟨"knot", 0⟩ ⟨"knot", 5⟩ ⟨"knot", 3⟩).answer = .ok () := by decide
  have hok' : (spare.insertBetween ⟨"flow", 0⟩ ⟨"flow", 4⟩ ⟨"flow", 1⟩).answer = .ok () := by decide
  obtain ⟨hover, -, -⟩ := insertion_leads_over h hok
  obtain ⟨-, -, hisolated⟩ := insertion_leads_over hspare hok'
  have hwest : knot.hasEdge ⟨"knot", 2⟩ ⟨"knot", 5⟩ := by decide
  refine ⟨h, hover, by decide, by decide, by cbv, ?_, ?_⟩
  · exact (hover.pathExists_iff _ _).2 (.tail (.single (.inl hwest)) (.inr (.inr ⟨rfl, rfl⟩)))
  · exact (hisolated (by decide) (by decide)).2.2 hacyclic

end Plan

end Dataflow
