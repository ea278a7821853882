import Dataflow.Proofs.Reconnection

/-!
# Subplans

The part of a plan that some of its operators make up is described at once by `Plan.induced`:
operators are kept or not, lists lose what is not kept, and a list that has become empty is gone.
Operators that are taken out one after the other, with each removal going through lists in both
tables, leave the subplan on the others (`Linked.foldl_discard_eq_induced`). The description does
not mention their order, and so the order makes no difference.

A trim does so with what lies below an operator, or above it. It therefore cuts the plan in two: it
hands back the operators of one subplan and leaves the other. The operator that was named stays,
also where a path leads back to it.
-/

namespace Dataflow

/-! ### Part of a table -/

namespace Table

variable {α : Type}

/-- The entries of which `q` holds. -/
def filter (q : Key → α → Bool) (t : Table α) : Table α :=
  ⟨t.entries.filter fun e ↦ q e.1 e.2, t.ascending.filter _⟩

theorem get?_filter (q : Key → α → Bool) (t : Table α) (k : Key) :
    (t.filter q).get? k = (t.get? k).filter (q k) := by
  refine Option.ext fun v ↦ ?_
  rw [Option.filter_eq_some_iff, get?_eq_some_iff, get?_eq_some_iff]
  exact List.mem_filter

/-- Part of the keys, where entries are told apart by their keys. -/
theorem keys_filter (keep : Key → Bool) (t : Table α) :
    (t.filter fun k _ ↦ keep k).keys = t.keys.filter keep :=
  List.filter_map.symm

/-- The values are what look-up finds under the keys. -/
theorem values_eq (t : Table α) : t.values = t.keys.filterMap t.get? := by
  have hget : ∀ e ∈ t.entries, (t.get? ∘ (·.1)) e = (some ∘ (·.2)) e := fun e he ↦
    get?_eq_some_iff.2 he
  rw [values, keys, List.filterMap_map, List.filterMap_congr hget, List.filterMap_eq_map]

end Table

/-! ### Keys in order -/

theorem Key.pairwise_sort (ks : List Key) : (Key.sort ks).Pairwise (· ≤ ·) := by
  refine (List.pairwise_mergeSort (fun a b c hab hbc ↦ ?_) (fun a b ↦ ?_) ks).imp of_decide_eq_true
  · rw [decide_eq_true_iff] at *
    exact Key.le_trans hab hbc
  · simpa using Key.le_total a b

/-- Keys of a table, sorted, stand in the order of the table. -/
theorem Table.sort_eq_filter_keys {α : Type} (t : Table α) {ks : List Key} (hks : ks.Nodup)
    (hc : ∀ k ∈ ks, k ∈ t.keys) : Key.sort ks = t.keys.filter (· ∈ ks) := by
  have hperm : (Key.sort ks).Perm (t.keys.filter (· ∈ ks)) := by
    refine (List.perm_ext_iff_of_nodup (Key.nodup_sort.2 hks) (t.nodup_keys.filter _)).2 fun k ↦ ?_
    rw [Key.mem_sort, List.mem_filter, decide_eq_true_iff]
    exact ⟨fun hk ↦ ⟨hc k hk, hk⟩, And.right⟩
  refine hperm.eq_of_pairwise (fun _ _ _ _ ↦ Key.le_antisymm) (Key.pairwise_sort ks) ?_
  refine List.Pairwise.filter _ (List.pairwise_map.2 (t.ascending.imp fun hlt ↦ ?_))
  exact Key.le_iff_lt_or_eq.2 (.inl hlt)

/-! ### Part of an adjacency -/

namespace Adjacency

/-- The entries of the keys to keep, with what is kept of their lists, unless that is nothing. -/
def restrict (keep : Key → Bool) (a : Adjacency) : Adjacency :=
  Table.filter (fun _ l ↦ !l.isEmpty)
    ((Table.filter (fun k _ ↦ keep k) a).mapWithKey fun _ l ↦ l.filter keep)

theorem neighbours_restrict (keep : Key → Bool) (a : Adjacency) (k : Key) :
    neighbours (restrict keep a) k = if keep k then (neighbours a k).filter keep else [] := by
  unfold neighbours restrict
  rw [Table.get?_filter, Table.get?_mapWithKey, Table.get?_filter]
  cases a.get? k with
  | none => exact (ite_self []).symm
  | some l =>
    rw [Option.filter_some]
    split
    · rw [Option.map_some, Option.filter_some]
      -- A list that has become empty is dropped, and reads the same.
      split
      next => rfl
      next hnil => exact (by simpa using hnil : l.filter keep = []).symm
    · rfl

theorem pruned_restrict (keep : Key → Bool) (a : Adjacency) : Pruned (restrict keep a) := by
  intro k hk
  rw [restrict, Table.get?_filter, Option.filter_eq_some_iff] at hk
  exact nomatch hk.2

/-- Where no step can be made, nothing is reached. -/
theorem closure_eq_nil {a : Adjacency} {k : Key} (h : neighbours a k = []) : closure a k = [] := by
  rw [closure, h, sweep_nil]

end Adjacency

namespace Plan

variable {p : Plan} {k : Key} {keep : Key → Bool}

/-- **The subplan** on the operators to keep. -/
def induced (keep : Key → Bool) (p : Plan) : Plan where
  ops := p.ops.filter fun k _ ↦ keep k
  succs := p.succs.restrict keep
  preds := p.preds.restrict keep

theorem operator?_induced (keep : Key → Bool) (p : Plan) (j : Key) :
    (p.induced keep).operator? j = if keep j then p.operator? j else none := by
  refine (Table.get?_filter ..).trans ?_
  show (p.operator? j).filter (fun _ ↦ keep j) = _
  cases p.operator? j with
  | none => exact (ite_self none).symm
  | some op => rfl

theorem contains_induced {j : Key} : (p.induced keep).contains j ↔ keep j ∧ p.contains j := by
  rw [contains_iff, operator?_induced, contains_iff]
  split <;> simp [*]

/-- What is not cut off is still there. -/
theorem contains_induced_not {cut : Key → Bool} (hcut : cut k = false) (hk : p.contains k) :
    (p.induced (!cut ·)).contains k := by
  refine contains_induced.2 ⟨?_, hk⟩
  rw [hcut, Bool.not_false]

theorem successors_induced (keep : Key → Bool) (p : Plan) (j : Key) :
    (p.induced keep).successors j = if keep j then (p.successors j).filter keep else [] :=
  Adjacency.neighbours_restrict keep p.succs j

theorem predecessors_induced (keep : Key → Bool) (p : Plan) (j : Key) :
    (p.induced keep).predecessors j = if keep j then (p.predecessors j).filter keep else [] :=
  Adjacency.neighbours_restrict keep p.preds j

/-- The operators that are kept, in the order of the plan. -/
theorem operators_induced (keep : Key → Bool) (p : Plan) :
    (p.induced keep).operators = (p.keys.filter keep).filterMap p.operator? := by
  have hops : ∀ j ∈ p.keys.filter keep, (p.induced keep).operator? j = p.operator? j :=
    fun j hj ↦ (operator?_induced ..).trans (if_pos (List.of_mem_filter hj))
  refine (Table.values_eq _).trans ?_
  show (p.induced keep).keys.filterMap (p.induced keep).operator? = _
  rw [keys, induced, Table.keys_filter]
  exact List.filterMap_congr hops

/-! ### Several operators taken out -/

theorem Linked.reversed_discard (h : p.Linked) (k : Key) :
    (p.discard k).reversed = p.reversed.discard k :=
  (h.reversed.discard k).eq_of_lookups (h.discard k).pruned_preds (h.discard k).pruned_succs
    (fun _ ↦ rfl)
    (fun j ↦ (predecessors_discard h k j).trans (successors_discard h.reversed k j).symm)
    (fun j ↦ (successors_discard h k j).trans (predecessors_discard h.reversed k j).symm)

theorem Linked.foldl_discard (h : p.Linked) (ks : List Key) : (ks.foldl Plan.discard p).Linked := by
  induction ks generalizing p with
  | nil => exact h
  | cons k ks ih => exact ih (h.discard k)

theorem Linked.reversed_foldl_discard (h : p.Linked) (ks : List Key) :
    (ks.foldl Plan.discard p).reversed = ks.foldl Plan.discard p.reversed := by
  induction ks generalizing p with
  | nil => rfl
  | cons k ks ih => rw [List.foldl_cons, List.foldl_cons, ih (h.discard k), h.reversed_discard]

theorem Linked.successors_induced_not_mem (h : p.Linked) (ks : List Key) (j : Key) :
    (p.induced (· ∉ ks)).successors j = (ks.foldl Plan.discard p).successors j := by
  rw [successors_induced, successors_foldl_discard h]
  by_cases hj : j ∈ ks <;> simp [hj]

/-- **Removal one by one leaves the subplan on the others.** -/
theorem Linked.foldl_discard_eq_induced (h : p.Linked) (ks : List Key) :
    ks.foldl Plan.discard p = p.induced (· ∉ ks) := by
  refine ((h.foldl_discard ks).eq_of_lookups (Adjacency.pruned_restrict _ _)
    (Adjacency.pruned_restrict _ _) (fun j ↦ ?_) (h.successors_induced_not_mem ks) fun j ↦ ?_).symm
  · rw [operator?_induced, operator?_foldl_discard]
    by_cases hj : j ∈ ks <;> simp [hj]
  · refine (h.reversed.successors_induced_not_mem ks j).trans ?_
    rw [← h.reversed_foldl_discard]
    rfl

/-- One more operator can be removed after others have been. -/
theorem remove_removeEach {done : List Key} (hnodup : (done ++ [k]).Nodup)
    (hc : ∀ j ∈ done ++ [k], p.contains j) :
    ∃ op, p.operator? k = some op ∧
      (p.removeEach done).plan.remove k = ⟨.ok op, (p.removeEach (done ++ [k])).plan⟩ := by
  obtain ⟨op, hop⟩ := contains_iff.1 (hc k (List.mem_append_right _ (List.mem_singleton_self k)))
  have hfresh : k ∉ done := fun hk ↦
    (List.nodup_append.1 hnodup).2.2 k hk k (List.mem_singleton_self k) rfl
  have hthere : (done.foldl discard p).operator? k = some op := by
    rw [operator?_foldl_discard, if_neg hfresh, hop]
  refine ⟨op, hop, ?_⟩
  rw [removeEach_eq hnodup hc, removeEach_eq (List.nodup_append.1 hnodup).1 fun j hj ↦
    hc j (List.mem_append_left _ hj)]
  dsimp only
  rw [remove_eq hthere, List.foldl_append, List.foldl_cons, List.foldl_nil]

/-- **Removals commute.** On every plan whose edges are in order, whether there are cycles or not,
and for every choice of operators: in whatever order they are removed, each call finds its operator
and hands it back, and what is left in the end is the subplan on the others. These keep their lists
of neighbours, without what has been removed and otherwise in the same order. -/
theorem removals_commute (h : p.Linked) {ks : List Key} (hks : ks.Nodup)
    (hc : ∀ k ∈ ks, p.contains k) :
    (∀ js, js.Perm ks →
      p.removeEach js = ⟨.ok (js.filterMap p.operator?), p.induced (· ∉ ks)⟩ ∧
      ∀ done k rest, js = done ++ k :: rest → ∃ op, p.operator? k = some op ∧
        (p.removeEach done).plan.remove k = ⟨.ok op, (p.removeEach (done ++ [k])).plan⟩) ∧
    ∀ j,
      (p.induced (· ∉ ks)).operator? j = (if j ∈ ks then none else p.operator? j) ∧
      (p.induced (· ∉ ks)).successors j =
        (if j ∈ ks then [] else (p.successors j).filter (· ∉ ks)) ∧
      (p.induced (· ∉ ks)).predecessors j =
        if j ∈ ks then [] else (p.predecessors j).filter (· ∉ ks) := by
  refine ⟨fun js hperm ↦ ⟨?_, fun done k rest hsplit ↦ ?_⟩, fun j ↦ ?_⟩
  · have hjs : ∀ j ∈ js, p.contains j := fun j hj ↦ hc j (hperm.mem_iff.1 hj)
    have hkeep : (fun j ↦ decide (j ∉ js)) = fun j ↦ decide (j ∉ ks) :=
      funext fun j ↦ by simp only [hperm.mem_iff]
    rw [removeEach_eq (hperm.nodup_iff.2 hks) hjs, h.foldl_discard_eq_induced, hkeep]
  · -- What has been removed and what comes next are listed once, and are in the plan.
    have hsplit' : js = (done ++ [k]) ++ rest := by rw [hsplit, List.append_assoc]; rfl
    refine remove_removeEach ?_ fun j hj ↦ hc j (hperm.mem_iff.1 ?_)
    · exact (List.nodup_append.1 (hsplit' ▸ hperm.nodup_iff.2 hks)).1
    · exact hsplit' ▸ List.mem_append_left _ hj
  · rw [operator?_induced, successors_induced, predecessors_induced]
    by_cases hj : j ∈ ks <;> simp [hj]

/-- The hub, the relay and the operator behind it form a cycle in the knot. In two different orders
of removal the same is left: the west feeds the meet, and the east has lost what fed it. -/
theorem removals_commute_knot :
    knot.Linked ∧
      knot.removeEach [⟨"knot", 0⟩, ⟨"knot", 1⟩, ⟨"knot", 4⟩] =
        ⟨.ok [⟨⟨"knot", 0⟩, "hub", .union, true, true⟩,
          ⟨⟨"knot", 1⟩, "relay", .split, false, true⟩,
          ⟨⟨"knot", 4⟩, "back", .transform, false, false⟩],
          knot.induced (· ∉ [⟨"knot", 0⟩, ⟨"knot", 1⟩, ⟨"knot", 4⟩])⟩ ∧
      (knot.removeEach [⟨"knot", 4⟩, ⟨"knot", 0⟩, ⟨"knot", 1⟩]).plan =
        knot.induced (· ∉ [⟨"knot", 0⟩, ⟨"knot", 1⟩, ⟨"knot", 4⟩]) ∧
      (knot.induced (· ∉ [⟨"knot", 0⟩, ⟨"knot", 1⟩, ⟨"knot", 4⟩])).preds.entries =
        [(⟨"knot", 5⟩, [⟨"knot", 2⟩])] := by
  have h : knot.Linked := (checkInvariants_eq_ok_iff.1 (by decide)).1
  have hks : ([⟨"knot", 0⟩, ⟨"knot", 1⟩, ⟨"knot", 4⟩] : List Key).Nodup := by decide
  obtain ⟨hany, -⟩ := removals_commute h hks (by decide)
  refine ⟨h, (hany _ (.refl _)).1, ?_, by cbv⟩
  rw [(hany [⟨"knot", 4⟩, ⟨"knot", 0⟩, ⟨"knot", 1⟩] (by decide)).1]

/-! ### Above and below -/

/-- Whether `j` is another operator than `k` and can be reached from it. -/
def isBelow (p : Plan) (k j : Key) : Bool :=
  p.pathExists k j && j ≠ k

/-- Whether `j` is another operator than `k` and can reach it. -/
def isAbove (p : Plan) (k j : Key) : Bool :=
  p.pathExists j k && j ≠ k

theorem isBelow_self (p : Plan) (k : Key) : p.isBelow k k = false := by
  simp [isBelow]

theorem isAbove_self (p : Plan) (k : Key) : p.isAbove k k = false := by
  simp [isAbove]

theorem Linked.isBelow_reversed (h : p.Linked) (k : Key) : p.reversed.isBelow k = p.isAbove k :=
  funext fun j ↦ by rw [isBelow, isAbove, Bool.eq_iff_iff.2 h.pathExists_reversed_iff]

/-- What a trim goes through: the operators below `k`, in key order. -/
theorem Linked.sort_below (h : p.Linked) (k : Key) :
    Key.sort ((p.below k).filter (· ≠ k)) = p.keys.filter (p.isBelow k) := by
  have hnodup : ((p.below k).filter (· ≠ k)).Nodup := (nodup_below k).filter _
  have hkeys : ∀ j ∈ (p.below k).filter (· ≠ k), j ∈ p.keys := fun j hj ↦
    mem_keys_iff.2 (h.contains_of_mem_below (List.mem_of_mem_filter hj))
  refine (p.ops.sort_eq_filter_keys hnodup hkeys).trans (List.filter_congr fun j _ ↦ ?_)
  rw [Bool.eq_iff_iff, decide_eq_true_iff, ← Key.mem_sort, mem_sort_below, isBelow,
    Bool.and_eq_true, decide_eq_true_iff]

theorem Linked.mem_filter_isBelow (h : p.Linked) {j : Key} :
    j ∈ p.keys.filter (p.isBelow k) ↔ p.isBelow k j := by
  rw [List.mem_filter, and_iff_right_iff_imp, mem_keys_iff, isBelow, Bool.and_eq_true]
  exact fun hj ↦ (h.contains_of_pathExists hj.1).2

/-! ### Trims -/

theorem Linked.trimBelow_eq_induced (h : p.Linked) (hk : p.contains k) :
    p.trimBelow k = ⟨.ok (p.induced (p.isBelow k)).operators, p.induced (!p.isBelow k ·)⟩ := by
  have hkeep : (fun j ↦ decide (j ∉ p.keys.filter (p.isBelow k))) = (!p.isBelow k ·) :=
    funext fun j ↦ by simp only [h.mem_filter_isBelow, decide_not, Bool.decide_eq_true]
  rw [h.trimBelow_eq hk, h.sort_below]
  dsimp only
  rw [h.foldl_discard_eq_induced, hkeep, operators_induced]

/-- Every successor of `k` lies below it. -/
theorem Linked.successors_induced_not_isBelow (h : p.Linked) (k : Key) :
    (p.induced (!p.isBelow k ·)).successors k = [] := by
  have hcut : (p.successors k).filter (!p.isBelow k ·) = [] := by
    refine List.filter_eq_nil_iff.2 fun j hj ↦ ?_
    rw [isBelow, pathExists_of_mem hj, decide_eq_true (h.ne_of_mem_successors hj)]
    exact Bool.false_ne_true
  rw [successors_induced, hcut, ite_self]

theorem trim_nil (hk : p.contains k) : p.trim k [] = ⟨.ok [], p⟩ := by
  rw [trim_eq hk .nil nofun, List.filter_nil, Key.sort, List.mergeSort_nil]
  rfl

/-- Below an operator that feeds nothing there is nothing to trim, -/
theorem trimBelow_of_leaf (hk : p.contains k) (hleaf : p.successors k = []) :
    p.trimBelow k = ⟨.ok [], p⟩ :=
  (congrArg (p.trim k) (Adjacency.closure_eq_nil hleaf)).trans (trim_nil hk)

/-- and above one that nothing feeds. -/
theorem trimAbove_of_root (hk : p.contains k) (hroot : p.predecessors k = []) :
    p.trimAbove k = ⟨.ok [], p⟩ :=
  (congrArg (p.trim k) (Adjacency.closure_eq_nil hroot)).trans (trim_nil hk)

/-- **To trim above is to trim below with all edges turned round.** -/
theorem Linked.trimAbove_eq_reversed (h : p.Linked) (hk : p.contains k) :
    p.trimAbove k = ⟨(p.reversed.trimBelow k).answer, (p.reversed.trimBelow k).plan.reversed⟩ := by
  rw [trimAbove, trim_eq hk (nodup_above k) fun _ ↦ h.contains_of_mem_above,
    h.reversed.trimBelow_eq hk]
  dsimp only
  rw [h.reversed.reversed_foldl_discard]
  rfl

/-- **Trims cut a plan in two.** On every plan whose edges are in order, whether there are cycles or
not, and for every operator `k` of it: trimming below `k` hands back the other operators that can be
reached from `k`, in key order, and leaves the subplan on the rest. Then `k` feeds nothing, and
there is nothing more to trim. Trimming above `k` is the same with all edges turned round. -/
theorem trims_cut_plan (h : p.Linked) (hk : p.contains k) :
    (p.trimBelow k = ⟨.ok (p.induced (p.isBelow k)).operators, p.induced (!p.isBelow k ·)⟩ ∧
      (p.trimBelow k).plan.successors k = [] ∧
      (p.trimBelow k).plan.trimBelow k = ⟨.ok [], (p.trimBelow k).plan⟩) ∧
    (p.trimAbove k = ⟨.ok (p.induced (p.isAbove k)).operators, p.induced (!p.isAbove k ·)⟩ ∧
      (p.trimAbove k).plan.predecessors k = [] ∧
      (p.trimAbove k).plan.trimAbove k = ⟨.ok [], (p.trimAbove k).plan⟩) ∧
    p.trimAbove k = ⟨(p.reversed.trimBelow k).answer, (p.reversed.trimBelow k).plan.reversed⟩ := by
  have hbelow := h.trimBelow_eq_induced hk
  have hleaf := h.successors_induced_not_isBelow k
  have hmirror := h.trimAbove_eq_reversed hk
  have habove : p.trimAbove k =
      ⟨.ok (p.induced (p.isAbove k)).operators, p.induced (!p.isAbove k ·)⟩ := by
    rw [hmirror, h.reversed.trimBelow_eq_induced hk, h.isBelow_reversed]
    rfl
  have hroot : (p.induced (!p.isAbove k ·)).predecessors k = [] := by
    rw [← h.isBelow_reversed]
    exact h.reversed.successors_induced_not_isBelow k
  refine ⟨⟨hbelow, ?_, ?_⟩, ⟨habove, ?_, ?_⟩, hmirror⟩
  · rwa [hbelow]
  · rw [hbelow]
    exact trimBelow_of_leaf (contains_induced_not (isBelow_self p k) hk) hleaf
  · rwa [habove]
  · rw [habove]
    exact trimAbove_of_root (contains_induced_not (isAbove_self p k) hk) hroot

/-- In the knot, the west feeds the meet alone, which is then missing from what the relay feeds. The
hub is on a cycle and all others lie below it; it stays, without edges. Above the meet there are all
others but the east. -/
theorem trims_cut_plan_knot :
    knot.Linked ∧
      (knot.trimBelow ⟨"knot", 2⟩).answer = .ok [⟨⟨"knot", 5⟩, "meet", .union, true, false⟩] ∧
      (knot.trimBelow ⟨"knot", 2⟩).plan.succs.entries =
        [(⟨"knot", 0⟩, [⟨"knot", 2⟩, ⟨"knot", 1⟩, ⟨"knot", 3⟩]), (⟨"knot", 1⟩, [⟨"knot", 4⟩]),
          (⟨"knot", 4⟩, [⟨"knot", 0⟩])] ∧
      knot.pathExists ⟨"knot", 0⟩ ⟨"knot", 0⟩ ∧
      (knot.trimBelow ⟨"knot", 0⟩).plan.keys = [⟨"knot", 0⟩] ∧
      (knot.trimAbove ⟨"knot", 5⟩).plan.keys = [⟨"knot", 3⟩, ⟨"knot", 5⟩] := by
  have h : knot.Linked := (checkInvariants_eq_ok_iff.1 (by decide)).1
  obtain ⟨⟨hwest, -⟩, -⟩ := trims_cut_plan h (k := ⟨"knot", 2⟩) (by decide)
  obtain ⟨⟨hhub, -⟩, -⟩ := trims_cut_plan h (k := ⟨"knot", 0⟩) (by decide)
  obtain ⟨-, ⟨hmeet, -⟩, -⟩ := trims_cut_plan h (k := ⟨"knot", 5⟩) (by decide)
  rw [hwest, hhub, hmeet]
  exact ⟨h, by cbv, by cbv, by cbv, by cbv, by cbv⟩

end Plan

end Dataflow
