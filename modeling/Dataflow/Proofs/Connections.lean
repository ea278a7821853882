import Dataflow.Proofs.Reconnection

/-!
# Edges added and taken back

`Plan.connectEach` adds edges one after the other, `Plan.disconnectEach` takes them out. An added
edge comes last in the two lists in which it is kept, so in the end the lists show in which order
edges were added; they are taken out in whatever order, and each time a list is searched from its
front. This works out because only new edges are let in (`Plan.Admits`). The lists are then the old
ones with new keys behind them (`successors_linkEach`), which differ from each other and from the
old ones, and to take edges out is to leave out what belongs to them (`successors_unlinkEach`). The
order in which this is done has gone from the description.

What is said of successors holds of predecessors by turning all edges round.
-/

namespace Dataflow

namespace Plan

variable {p : Plan} {es ds : List (Key × Key)}

/-! ### Several edges -/

/-- Adds the edges one after the other, up to the first that is refused. -/
def connectEach (p : Plan) : List (Key × Key) → Outcome PlanError Unit
  | [] => ⟨.ok (), p⟩
  | e :: es =>
    match p.connect e.1 e.2 with
    | ⟨.error cause, q⟩ => ⟨.error cause, q⟩
    | ⟨.ok (), q⟩ => connectEach q es

/-- Takes the edges out one after the other, and says of each whether it was there. -/
def disconnectEach (p : Plan) : List (Key × Key) → List Bool × Plan
  | [] => ([], p)
  | e :: es =>
    let rest := disconnectEach (p.disconnect e.1 e.2).2 es
    ((p.disconnect e.1 e.2).1 :: rest.1, rest.2)

/-- Appends all the edges at both of their ends. -/
def linkEach (p : Plan) (es : List (Key × Key)) : Plan :=
  es.foldl (fun p e ↦ p.link e.1 e.2) p

/-- Takes all the edges out at both of their ends. -/
def unlinkEach (p : Plan) (es : List (Key × Key)) : Plan :=
  es.foldl (fun p e ↦ p.unlink e.1 e.2) p

theorem ops_linkEach (p : Plan) (es : List (Key × Key)) : (p.linkEach es).ops = p.ops := by
  induction es generalizing p with
  | nil => rfl
  | cons e es ih => exact ih (p.link e.1 e.2)

theorem ops_unlinkEach (p : Plan) (es : List (Key × Key)) : (p.unlinkEach es).ops = p.ops := by
  induction es generalizing p with
  | nil => rfl
  | cons e es ih => exact ih (p.unlink e.1 e.2)

theorem reversed_linkEach (p : Plan) (es : List (Key × Key)) :
    (p.linkEach es).reversed = p.reversed.linkEach (es.map Prod.swap) := by
  induction es generalizing p with
  | nil => rfl
  | cons e es ih => exact ih (p.link e.1 e.2)

theorem reversed_unlinkEach (p : Plan) (es : List (Key × Key)) :
    (p.unlinkEach es).reversed = p.reversed.unlinkEach (es.map Prod.swap) := by
  induction es generalizing p with
  | nil => rfl
  | cons e es ih => exact ih (p.unlink e.1 e.2)

theorem Linked.unlinkEach (h : p.Linked) (es : List (Key × Key)) : (p.unlinkEach es).Linked := by
  induction es generalizing p with
  | nil => exact h
  | cons e es ih => exact ih (h.unlink e.1 e.2)

/-- New neighbours come after the old ones, in the order in which they were added. -/
theorem successors_linkEach (p : Plan) (es : List (Key × Key)) (j : Key) :
    (p.linkEach es).successors j = p.successors j ++ (es.filter (·.1 = j)).map (·.2) := by
  induction es generalizing p with
  | nil => exact (List.append_nil _).symm
  | cons e es ih =>
    refine (ih (p.link e.1 e.2)).trans ?_
    rw [successors_link, List.filter_cons]
    by_cases hj : e.1 = j
    · simp [hj]
    · simp [hj, Ne.symm hj]

/-- The neighbours that are left stand in the order in which they stood. -/
theorem successors_unlinkEach (h : p.Linked) (ds : List (Key × Key)) (j : Key) :
    (p.unlinkEach ds).successors j = (p.successors j).filter fun k ↦ (j, k) ∉ ds := by
  induction ds generalizing p with
  | nil => exact (List.filter_eq_self.2 fun _ _ ↦ decide_eq_true List.not_mem_nil).symm
  | cons e ds ih =>
    refine (ih (h.unlink e.1 e.2)).trans ?_
    rw [successors_unlink]
    by_cases hj : j = e.1
    · rw [if_pos hj, (h.nodup_successors e.1).erase_eq_filter, List.filter_filter, ← hj]
      refine List.filter_congr fun k _ ↦ Bool.eq_iff_iff.2 ?_
      simp [Prod.ext_iff, hj, and_comm]
    · rw [if_neg hj]
      refine List.filter_congr fun k _ ↦ Bool.eq_iff_iff.2 ?_
      simp [Prod.ext_iff, hj]

/-! ### New edges -/

/-- **New edges.** None of them is listed twice, and none is in the plan. -/
structure Admits (p : Plan) (es : List (Key × Key)) : Prop where
  nodup : es.Nodup
  not_mem : ∀ e ∈ es, e.2 ∉ p.successors e.1

theorem Admits.reversed (ha : p.Admits es) (h : p.Linked) :
    p.reversed.Admits (es.map Prod.swap) where
  nodup := ha.nodup.map Prod.swap_injective
  not_mem e he := by
    obtain ⟨d, hd, rfl⟩ := List.mem_map.1 he
    exact mt (h.mem_successors_iff d.1 d.2).2 (ha.not_mem d hd)

/-- An edge is new when it is added, and those after it are new with it in the plan. -/
theorem Admits.cons {e : Key × Key} (hnot : e.2 ∉ p.successors e.1)
    (ha : (p.link e.1 e.2).Admits es) : p.Admits (e :: es) where
  nodup := ha.nodup.cons fun he ↦ ha.not_mem e he (mem_successors_link.2 (.inr ⟨rfl, rfl⟩))
  not_mem := List.forall_mem_cons.2
    ⟨hnot, fun d hd hmem ↦ ha.not_mem d hd (mem_successors_link.2 (.inl hmem))⟩

/-- **Only new edges are let in.** If none is refused, all are linked and all were new. -/
theorem Linked.connectEach (h : p.Linked) (hok : (p.connectEach es).answer = .ok ()) :
    (p.connectEach es).plan = p.linkEach es ∧ (p.linkEach es).Linked ∧ p.Admits es := by
  induction es generalizing p with
  | nil => exact ⟨rfl, h, .nil, nofun⟩
  | cons e es ih =>
    have hlinked := h.connect e.1 e.2
    rw [Plan.connectEach] at hok ⊢
    split at hok
    next => cases hok
    next q hq =>
      have hverdict : (p.connect e.1 e.2).answer = .ok () := congrArg Outcome.answer hq
      have hlink : p.connect e.1 e.2 = ⟨.ok (), p.link e.1 e.2⟩ := commit_of_ok hverdict
      obtain rfl : p.link e.1 e.2 = q := congrArg Outcome.plan (hlink.symm.trans hq)
      rw [hlink] at hlinked
      obtain ⟨hplan, hlinked', hadmits⟩ := ih hlinked hok
      obtain ⟨-, -, -, -, -, hnot, -⟩ := checkConnect_eq_ok_iff.1 hverdict
      exact ⟨hplan, hlinked', hadmits.cons hnot⟩

/-! ### Taking edges back -/

/-- Edges that are there can be taken out one after the other. -/
theorem Linked.disconnectEach (h : p.Linked) (hds : ds.Nodup)
    (hmem : ∀ e ∈ ds, e.2 ∈ p.successors e.1) :
    p.disconnectEach ds = (List.replicate ds.length true, p.unlinkEach ds) := by
  induction ds generalizing p with
  | nil => rfl
  | cons e ds ih =>
    obtain ⟨he, hds⟩ := List.nodup_cons.1 hds
    obtain ⟨hedge, hmem⟩ := List.forall_mem_cons.1 hmem
    -- The edges that are still to go are other edges, and stay.
    have hmem' : ∀ d ∈ ds, d.2 ∈ (p.unlink e.1 e.2).successors d.1 := fun d hd ↦
      (mem_successors_unlink h).2 ⟨hmem d hd, fun heq ↦ he (Prod.ext heq.1 heq.2 ▸ hd)⟩
    have hhead : p.disconnect e.1 e.2 = (true, p.unlink e.1 e.2) := if_pos (hasEdge_iff.2 hedge)
    rw [Plan.disconnectEach, hhead]
    dsimp only
    rw [ih (h.unlink e.1 e.2) hds hmem']
    rfl

/-- Without the new edges every operator feeds what it fed. -/
theorem Admits.successors_unlinkEach_linkEach (ha : p.Admits es) (hl : (p.linkEach es).Linked)
    (hds : ∀ e, e ∈ ds ↔ e ∈ es) (j : Key) :
    ((p.linkEach es).unlinkEach ds).successors j = p.successors j := by
  have hold : (p.successors j).filter (fun k ↦ (j, k) ∉ ds) = p.successors j :=
    List.filter_eq_self.2 fun k hk ↦ decide_eq_true fun hmem ↦
      ha.not_mem (j, k) ((hds _).1 hmem) hk
  have hnew : ((es.filter (·.1 = j)).map (·.2)).filter (fun k ↦ (j, k) ∉ ds) = [] := by
    simp only [List.filter_eq_nil_iff, List.mem_map, List.mem_filter, decide_eq_true_eq]
    rintro _ ⟨e, ⟨he, rfl⟩, rfl⟩ hnot
    exact hnot ((hds e).2 he)
  rw [successors_unlinkEach hl, successors_linkEach, List.filter_append, hold, hnew,
    List.append_nil]

/-- **New edges can be taken out again.** -/
theorem Admits.unlinkEach_linkEach (ha : p.Admits es) (h : p.Linked) (hl : (p.linkEach es).Linked)
    (hds : ∀ e, e ∈ ds ↔ e ∈ es) : (p.linkEach es).unlinkEach ds = p := by
  have hunlinked := hl.unlinkEach ds
  have hlr : (p.reversed.linkEach (es.map Prod.swap)).Linked := reversed_linkEach p es ▸ hl.reversed
  have hdsr : ∀ e, e ∈ ds.map Prod.swap ↔ e ∈ es.map Prod.swap := fun e ↦ by
    simp only [List.mem_map, hds]
  refine h.eq_of_lookups hunlinked.pruned_succs hunlinked.pruned_preds (fun j ↦ ?_)
    (ha.successors_unlinkEach_linkEach hl hds) fun j ↦ ?_
  · rw [operator?, ops_unlinkEach, ops_linkEach, operator?]
  · show ((p.linkEach es).unlinkEach ds).reversed.successors j = p.reversed.successors j
    rw [reversed_unlinkEach, reversed_linkEach]
    exact (ha.reversed h).successors_unlinkEach_linkEach hlr hdsr j

/-- **Edges are taken back in any order.** On every plan whose edges are in order, whether there are
cycles or not: if several edges are added and none is refused, and then the same edges are taken out
in whatever order, each of them is found, and the plan is the one from the outset, the order in its
lists and the keys without an entry included. -/
theorem disconnections_undo_connections (h : p.Linked)
    (hok : (p.connectEach es).answer = .ok ()) (hperm : ds.Perm es) :
    (p.connectEach es).plan.disconnectEach ds = (List.replicate ds.length true, p) := by
  obtain ⟨hplan, hlinked, hadmits⟩ := h.connectEach hok
  have hmem : ∀ e ∈ ds, e.2 ∈ (p.linkEach es).successors e.1 := fun e he ↦ by
    rw [successors_linkEach, List.mem_append, List.mem_map]
    exact .inr ⟨e, List.mem_filter.2 ⟨hperm.mem_iff.1 he, decide_eq_true rfl⟩, rfl⟩
  rw [hplan, hlinked.disconnectEach (hperm.nodup_iff.2 hadmits.nodup) hmem,
    hadmits.unlinkEach_linkEach h hlinked fun _ ↦ hperm.mem_iff]

/-- Two edges into the hub of the knot and one from it to the meet, which one of the others starts
from. They come last in lists that had entries before, except that the meet had fed nothing; and
they are taken out in another order. -/
theorem disconnections_undo_connections_knot :
    knot.Linked ∧
      (knot.connectEach [(⟨"knot", 0⟩, ⟨"knot", 5⟩), (⟨"knot", 1⟩, ⟨"knot", 0⟩),
        (⟨"knot", 5⟩, ⟨"knot", 0⟩)]).answer = .ok () ∧
      (knot.connectEach [(⟨"knot", 0⟩, ⟨"knot", 5⟩), (⟨"knot", 1⟩, ⟨"knot", 0⟩),
        (⟨"knot", 5⟩, ⟨"knot", 0⟩)]).plan.predecessors ⟨"knot", 0⟩ =
          [⟨"knot", 4⟩, ⟨"knot", 1⟩, ⟨"knot", 5⟩] ∧
      (knot.connectEach [(⟨"knot", 0⟩, ⟨"knot", 5⟩), (⟨"knot", 1⟩, ⟨"knot", 0⟩),
        (⟨"knot", 5⟩, ⟨"knot", 0⟩)]).plan.disconnectEach [(⟨"knot", 1⟩, ⟨"knot", 0⟩),
          (⟨"knot", 5⟩, ⟨"knot", 0⟩), (⟨"knot", 0⟩, ⟨"knot", 5⟩)] = ([true, true, true], knot) := by
  have h : knot.Linked := (checkInvariants_eq_ok_iff.1 (by decide)).1
  have hok : (knot.connectEach [(⟨"knot", 0⟩, ⟨"knot", 5⟩), (⟨"knot", 1⟩, ⟨"knot", 0⟩),
      (⟨"knot", 5⟩, ⟨"knot", 0⟩)]).answer = .ok () := by decide
  exact ⟨h, hok, by decide, disconnections_undo_connections h hok (by decide)⟩

end Plan

end Dataflow
