import Dataflow.Plan.Edit
import Dataflow.Proofs.Linked

/-!
# What edits do to operators and their neighbours

For each bare change of `Dataflow.Plan.Edit` what it does to the operator, the successors and the
predecessors of any key. On linked plans the two lists kept at a key tell exactly in which other
lists it occurs, so a change that visits only these lists has the effect of one that visits all of
them; this is where the mirror law comes in.
-/

namespace Dataflow

namespace Plan

variable {p : Plan}

/-! ### Putting an operator in -/

theorem operator?_put (op : Operator) (j : Key) :
    (p.put op).operator? j = if j = op.key then some op else p.operator? j :=
  Table.get?_insert ..

theorem contains_put {op : Operator} {j : Key} :
    (p.put op).contains j ↔ j = op.key ∨ p.contains j := by
  simp only [contains_iff, operator?_put]
  split <;> simp_all

/-! ### Lists that do not have a key -/

/-- A key occurs in the successors of its predecessors only. -/
theorem Linked.not_mem_neighbours_erase_succs (h : p.Linked) {k j : Key}
    (hj : j ∉ p.predecessors k) : k ∉ Adjacency.neighbours (p.succs.erase k) j := by
  rw [Adjacency.neighbours_erase]
  split
  · exact List.not_mem_nil
  · exact fun hk ↦ hj ((h.mem_successors_iff j k).1 hk)

/-- A key occurs in the predecessors of its successors only. -/
theorem Linked.not_mem_neighbours_erase_preds (h : p.Linked) {k j : Key}
    (hj : j ∉ p.successors k) : k ∉ Adjacency.neighbours (p.preds.erase k) j := by
  rw [Adjacency.neighbours_erase]
  split
  · exact List.not_mem_nil
  · exact fun hk ↦ hj ((h.mem_successors_iff k j).2 hk)

/-! ### Taking an operator out -/

theorem operator?_discard (k j : Key) :
    (p.discard k).operator? j = if j = k then none else p.operator? j :=
  Table.get?_erase ..

/-- The other operators lose `k` from their successors. -/
theorem successors_discard (h : p.Linked) (k j : Key) :
    (p.discard k).successors j = if j = k then [] else (p.successors j).erase k := by
  refine (Adjacency.neighbours_updateAll_of_fixed _ (h.nodup_predecessors k)
    (fun i hi ↦ List.erase_of_not_mem (h.not_mem_neighbours_erase_succs hi)) j).trans ?_
  rw [Adjacency.neighbours_erase]
  split <;> rfl

/-- The other operators lose `k` from their predecessors. -/
theorem predecessors_discard (h : p.Linked) (k j : Key) :
    (p.discard k).predecessors j = if j = k then [] else (p.predecessors j).erase k := by
  have hfix : ∀ i ∉ p.successors k, (p.predecessors i).erase k = p.predecessors i :=
    fun i hi ↦ List.erase_of_not_mem fun hk ↦ hi ((h.mem_successors_iff k i).2 hk)
  refine (Adjacency.neighbours_erase ..).trans ?_
  rw [Adjacency.neighbours_updateAll_of_fixed _ (h.nodup_successors k) hfix]
  rfl

theorem contains_discard {k j : Key} : (p.discard k).contains j ↔ j ≠ k ∧ p.contains j := by
  simp only [contains_iff, operator?_discard]
  split <;> simp_all

theorem mem_successors_discard (h : p.Linked) {k a b : Key} :
    b ∈ (p.discard k).successors a ↔ a ≠ k ∧ b ≠ k ∧ b ∈ p.successors a := by
  rw [successors_discard h]
  split
  next ha => simp [ha]
  next ha => simp [ha, (h.nodup_successors a).mem_erase_iff]

theorem mem_predecessors_discard (h : p.Linked) {k a b : Key} :
    a ∈ (p.discard k).predecessors b ↔ a ≠ k ∧ b ≠ k ∧ a ∈ p.predecessors b := by
  rw [predecessors_discard h]
  split
  next hb => simp [hb]
  next hb => simp [hb, (h.nodup_predecessors b).mem_erase_iff]

/-! ### Single edges -/

theorem successors_link (source target j : Key) :
    (p.link source target).successors j =
      if j = source then p.successors source ++ [target] else p.successors j :=
  Adjacency.neighbours_update ..

theorem predecessors_link (source target j : Key) :
    (p.link source target).predecessors j =
      if j = target then p.predecessors target ++ [source] else p.predecessors j :=
  Adjacency.neighbours_update ..

theorem mem_successors_link {source target a b : Key} :
    b ∈ (p.link source target).successors a ↔ b ∈ p.successors a ∨ a = source ∧ b = target := by
  rw [successors_link]
  split <;> simp_all

theorem mem_predecessors_link {source target a b : Key} :
    a ∈ (p.link source target).predecessors b ↔
      a ∈ p.predecessors b ∨ a = source ∧ b = target := by
  rw [predecessors_link]
  split <;> simp_all

theorem successors_unlink (source target j : Key) :
    (p.unlink source target).successors j =
      if j = source then (p.successors source).erase target else p.successors j :=
  Adjacency.neighbours_update ..

theorem predecessors_unlink (source target j : Key) :
    (p.unlink source target).predecessors j =
      if j = target then (p.predecessors target).erase source else p.predecessors j :=
  Adjacency.neighbours_update ..

theorem mem_successors_unlink (h : p.Linked) {source target a b : Key} :
    b ∈ (p.unlink source target).successors a ↔
      b ∈ p.successors a ∧ ¬(a = source ∧ b = target) := by
  rw [successors_unlink]
  split
  next ha =>
    subst ha
    simp [(h.nodup_successors a).mem_erase_iff, and_comm]
  next ha => simp [ha]

theorem mem_predecessors_unlink (h : p.Linked) {source target a b : Key} :
    a ∈ (p.unlink source target).predecessors b ↔
      a ∈ p.predecessors b ∧ ¬(a = source ∧ b = target) := by
  rw [predecessors_unlink]
  split
  next hb =>
    subst hb
    simp [(h.nodup_predecessors b).mem_erase_iff, and_comm]
  next hb => simp [hb]

/-! ### Replacement -/

theorem operator?_substitute (old : Key) (new : Operator) (j : Key) :
    (p.substitute old new).operator? j =
      if j = new.key then some new else if j = old then none else p.operator? j := by
  refine (Table.get?_insert ..).trans ?_
  rw [Table.get?_erase]
  rfl

/-- The new operator has the successors of the old one, which no longer has any; everyone else sees
the new one where they saw the old. -/
theorem successors_substitute (h : p.Linked) (old : Key) (new : Operator) (j : Key) :
    (p.substitute old new).successors j =
      if j = new.key then p.successors old
      else if j = old then []
      else Adjacency.rename old new.key (p.successors j) := by
  refine (Adjacency.neighbours_set ..).trans ?_
  split
  · rfl
  · refine (Adjacency.neighbours_updateAll_of_fixed _ (h.nodup_predecessors old)
      (fun i hi ↦ Adjacency.rename_of_not_mem _ (h.not_mem_neighbours_erase_succs hi)) j).trans ?_
    simp only [Adjacency.neighbours_erase]
    split <;> rfl

/-- The same for predecessors. -/
theorem predecessors_substitute (h : p.Linked) (old : Key) (new : Operator) (j : Key) :
    (p.substitute old new).predecessors j =
      if j = new.key then p.predecessors old
      else if j = old then []
      else Adjacency.rename old new.key (p.predecessors j) := by
  refine (Adjacency.neighbours_set ..).trans ?_
  split
  · rfl
  · refine (Adjacency.neighbours_updateAll_of_fixed _ (h.nodup_successors old)
      (fun i hi ↦ Adjacency.rename_of_not_mem _ (h.not_mem_neighbours_erase_preds hi)) j).trans ?_
    simp only [Adjacency.neighbours_erase]
    split <;> rfl

theorem contains_substitute {old j : Key} {new : Operator} :
    (p.substitute old new).contains j ↔ j = new.key ∨ j ≠ old ∧ p.contains j := by
  simp only [contains_iff, operator?_substitute]
  split
  next hj => simp [hj]
  next hj => split <;> simp_all

/-- Who had a key before `old` was renamed to `new`. -/
def renamedFrom (old new k : Key) : Key :=
  if k = new then old else k

theorem contains_substitute_of_renamedFrom {old k : Key} {new : Operator} (hk : k ≠ old)
    (h : p.contains (renamedFrom old new.key k)) : (p.substitute old new).contains k := by
  rw [renamedFrom] at h
  split at h
  next hnew => exact contains_substitute.2 (.inl hnew)
  next => exact contains_substitute.2 (.inr ⟨hk, h⟩)

/-- An edge after a replacement is an edge from before it, its ends renamed. -/
theorem mem_successors_substitute (h : p.Linked) {old : Key} {new : Operator}
    (hnew : ¬p.contains new.key) {a b : Key} :
    b ∈ (p.substitute old new).successors a ↔ a ≠ old ∧ b ≠ old ∧
      renamedFrom old new.key b ∈ p.successors (renamedFrom old new.key a) := by
  have hnil := h.successors_eq_nil hnew
  have hself := h.not_mem_successors_self old
  have hnot : ∀ k, new.key ∉ p.successors k := fun k hk ↦ hnew (h.contains_of_mem hk).2
  rw [successors_substitute h]
  unfold renamedFrom
  grind [Adjacency.mem_rename]

theorem mem_predecessors_substitute (h : p.Linked) {old : Key} {new : Operator}
    (hnew : ¬p.contains new.key) {a b : Key} :
    a ∈ (p.substitute old new).predecessors b ↔ a ≠ old ∧ b ≠ old ∧
      renamedFrom old new.key a ∈ p.predecessors (renamedFrom old new.key b) := by
  have hnil := h.predecessors_eq_nil hnew
  have hself := h.not_mem_predecessors_self old
  have hnot : ∀ k, new.key ∉ p.predecessors k := fun k hk ↦
    hnew (h.contains_of_mem ((h.mem_successors_iff _ k).2 hk)).1
  rw [predecessors_substitute h]
  unfold renamedFrom
  grind [Adjacency.mem_rename]

/-! ### Insertion into an edge

The operator to insert may be one of the two ends here. What comes out is not linked then, but it is
a plan all the same. -/

theorem successors_reroute (after between before j : Key) :
    (p.reroute after between before).successors j =
      (if j = after then Adjacency.rename before between (p.successors j) else p.successors j) ++
        if j = between then [before] else [] := by
  refine (Adjacency.neighbours_update ..).trans ?_
  rw [Adjacency.neighbours_update, Adjacency.neighbours_update]
  split <;> simp_all [successors]

theorem predecessors_reroute (after between before j : Key) :
    (p.reroute after between before).predecessors j =
      (if j = before then Adjacency.rename after between (p.predecessors j)
        else p.predecessors j) ++ if j = between then [after] else [] := by
  refine (Adjacency.neighbours_update ..).trans ?_
  rw [Adjacency.neighbours_update, Adjacency.neighbours_update]
  split <;> simp_all [predecessors]

/-- The edge is gone, and two others are there in its place. -/
theorem mem_successors_reroute {after between before a b : Key}
    (hedge : before ∈ p.successors after) :
    b ∈ (p.reroute after between before).successors a ↔
      b ∈ p.successors a ∧ ¬(a = after ∧ b = before) ∨ a = after ∧ b = between ∨
        a = between ∧ b = before := by
  rw [successors_reroute]
  grind [Adjacency.mem_rename]

theorem mem_predecessors_reroute {after between before a b : Key}
    (hedge : after ∈ p.predecessors before) :
    a ∈ (p.reroute after between before).predecessors b ↔
      a ∈ p.predecessors b ∧ ¬(a = after ∧ b = before) ∨ a = after ∧ b = between ∨
        a = between ∧ b = before := by
  rw [predecessors_reroute]
  grind [Adjacency.mem_rename]

/-! ### Removal with reconnection -/

theorem operator?_bypass (k j : Key) :
    (p.bypass k).operator? j = if j = k then none else p.operator? j := by
  rw [bypass]
  split <;> exact Table.get?_erase ..

theorem contains_bypass {k j : Key} : (p.bypass k).contains j ↔ j ≠ k ∧ p.contains j := by
  simp only [contains_iff, operator?_bypass]
  split <;> simp_all

/-- The key of an operator that was bypassed is free again. -/
theorem not_contains_bypass (p : Plan) (k : Key) : ¬(p.bypass k).contains k :=
  fun hk ↦ (contains_bypass.1 hk).1 rfl

theorem predecessors_eq_nil_or_singleton {k : Key} (hk : p.inDegree k ≤ 1) :
    p.predecessors k = [] ∨ ∃ before, p.predecessors k = [before] := by
  rcases hl : p.predecessors k with - | ⟨before, rest⟩
  · exact .inl rfl
  · rw [inDegree, hl, List.length_cons] at hk
    have hrest : rest = [] := List.eq_nil_of_length_eq_zero (by omega)
    exact .inr ⟨before, by rw [hrest]⟩

theorem Linked.head?_predecessors_iff (h : p.Linked) {k before : Key} (hk : p.inDegree k ≤ 1) :
    (p.predecessors k).head? = some before ↔ k ∈ p.successors before := by
  rw [h.mem_successors_iff]
  rcases predecessors_eq_nil_or_singleton hk with hnil | ⟨before', hbefore⟩
  · simp [hnil]
  · simp [hbefore, eq_comm]

/-- Whoever fed `k` feeds its successors instead, at the same place. -/
theorem successors_bypass (h : p.Linked) {k : Key} (hk : p.inDegree k ≤ 1) (j : Key) :
    (p.bypass k).successors j =
      if j = k then [] else Adjacency.replaceFirst k (p.successors k) (p.successors j) := by
  have hfix : ∀ i ∉ p.predecessors k,
      Adjacency.replaceFirst k (p.successors k) (p.successors i) = p.successors i := fun i hi ↦
    Adjacency.replaceFirst_of_not_mem _ fun hki ↦ hi ((h.mem_successors_iff i k).1 hki)
  rcases predecessors_eq_nil_or_singleton hk with hnil | ⟨before, hbefore⟩
  · rw [hfix j (hnil ▸ List.not_mem_nil)]
    rw [bypass]
    rw [hnil]
    exact Adjacency.neighbours_erase ..
  · -- The list of `before` is the only one that is visited, and the only one that has `k`.
    have hne : before ≠ k :=
      h.ne_of_mem_predecessors (by rw [hbefore]; exact List.mem_singleton_self before)
    have hj : j = before ∨ p.successors j = _ :=
      or_iff_not_imp_left.2 fun hj ↦ (hfix j (hbefore ▸ List.mem_singleton.not.2 hj)).symm
    rw [bypass]
    rw [hbefore]
    refine (Adjacency.neighbours_update ..).trans ?_
    rw [Adjacency.neighbours_erase, Adjacency.neighbours_erase, if_neg hne]
    rcases hj with rfl | hj
    · rw [if_pos rfl, if_neg hne]
      rfl
    · split
      next he => rw [he, if_neg hne]; rfl
      next => rw [← hj]; rfl

/-- Whoever was fed by `k` is fed by its predecessors instead, at the same place. -/
theorem predecessors_bypass (h : p.Linked) {k : Key} (hk : p.inDegree k ≤ 1) (j : Key) :
    (p.bypass k).predecessors j =
      if j = k then [] else Adjacency.replaceFirst k (p.predecessors k) (p.predecessors j) := by
  rcases predecessors_eq_nil_or_singleton hk with hnil | ⟨before, hbefore⟩
  · rw [hnil, Adjacency.replaceFirst_nil]
    rw [bypass]
    rw [hnil]
    refine (Adjacency.neighbours_updateAll_of_fixed _ (h.nodup_successors k)
      (fun i hi ↦ List.erase_of_not_mem (h.not_mem_neighbours_erase_preds hi)) j).trans ?_
    rw [Adjacency.neighbours_erase]
    split <;> rfl
  · rw [hbefore, Adjacency.replaceFirst_singleton _ (h.nodup_predecessors j)]
    rw [bypass]
    rw [hbefore]
    refine (Adjacency.neighbours_updateAll_of_fixed _ (h.nodup_successors k)
      (fun i hi ↦ Adjacency.rename_of_not_mem _ (h.not_mem_neighbours_erase_preds hi)) j).trans ?_
    rw [Adjacency.neighbours_erase]
    split <;> rfl

/-- An edge after the removal of `k` is an edge from before it, or leads where a path over `k`
led. -/
theorem mem_successors_bypass (h : p.Linked) {k a b : Key} (hk : p.inDegree k ≤ 1) :
    b ∈ (p.bypass k).successors a ↔ a ≠ k ∧ b ≠ k ∧
      (b ∈ p.successors a ∨ k ∈ p.successors a ∧ b ∈ p.successors k) := by
  have hself := h.not_mem_successors_self k
  rw [successors_bypass h hk]
  grind [Adjacency.mem_replaceFirst _ (h.nodup_successors a)]

theorem mem_predecessors_bypass (h : p.Linked) {k a b : Key} (hk : p.inDegree k ≤ 1) :
    a ∈ (p.bypass k).predecessors b ↔ a ≠ k ∧ b ≠ k ∧
      (a ∈ p.predecessors b ∨ k ∈ p.predecessors b ∧ a ∈ p.predecessors k) := by
  have hself := h.not_mem_predecessors_self k
  rw [predecessors_bypass h hk]
  grind [Adjacency.mem_replaceFirst _ (h.nodup_predecessors b)]

/-! ### Two plans in one -/

theorem operator?_union (q : Plan) (j : Key) :
    (p.union q).operator? j = (q.operator? j).or (p.operator? j) :=
  Table.get?_union ..

theorem contains_union {q : Plan} {j : Key} :
    (p.union q).contains j ↔ p.contains j ∨ q.contains j := by
  simp only [contains_iff, operator?_union, Option.or_eq_some_iff]
  cases q.operator? j <;> simp

/-- Plans that share no operator have no list for the same key. -/
theorem Linked.eq_nil_or_eq_nil {q : Plan} (h : p.Linked) (hq : q.Linked)
    (hd : ∀ k, q.contains k → ¬p.contains k) (j : Key) :
    p.successors j = [] ∧ p.predecessors j = [] ∨ q.successors j = [] ∧ q.predecessors j = [] := by
  by_cases hj : q.contains j
  · exact .inl ⟨h.successors_eq_nil (hd j hj), h.predecessors_eq_nil (hd j hj)⟩
  · exact .inr ⟨hq.successors_eq_nil hj, hq.predecessors_eq_nil hj⟩

theorem successors_union {q : Plan} (h : p.Linked) (hq : q.Linked)
    (hd : ∀ k, q.contains k → ¬p.contains k) (j : Key) :
    (p.union q).successors j = p.successors j ++ q.successors j :=
  Adjacency.neighbours_union hq.pruned_succs
    (fun k ↦ (h.eq_nil_or_eq_nil hq hd k).imp And.left And.left) j

theorem predecessors_union {q : Plan} (h : p.Linked) (hq : q.Linked)
    (hd : ∀ k, q.contains k → ¬p.contains k) (j : Key) :
    (p.union q).predecessors j = p.predecessors j ++ q.predecessors j :=
  Adjacency.neighbours_union hq.pruned_preds
    (fun k ↦ (h.eq_nil_or_eq_nil hq hd k).imp And.right And.right) j

end Plan

end Dataflow
