import Dataflow.Proofs.EditViews

/-!
# Which edits keep a plan linked

For each bare change the exact condition under which it leads from a linked plan to a linked one,
and from a plan that respects the arity of its operators to another one. The checks of
`Dataflow.Plan.Edit` are not mentioned here: that each of them asks for just this condition is shown
where they are dealt with.
-/

namespace Dataflow

namespace Plan

variable {p q : Plan}

/-- A plan whose operators all come from `p`, with no more edges at any of them. -/
theorem RespectsArity.of_le (ha : p.RespectsArity)
    (hop : ∀ k op, q.operator? k = some op → p.operator? k = some op)
    (hout : ∀ k, q.outDegree k ≤ p.outDegree k) (hin : ∀ k, q.inDegree k ≤ p.inDegree k) :
    q.RespectsArity where
  outputs hk hlen := ha.outputs (hop _ _ hk) (Nat.lt_of_lt_of_le hlen (hout _))
  inputs hk hlen := ha.inputs (hop _ _ hk) (Nat.lt_of_lt_of_le hlen (hin _))

/-- One more edge, from `source` and to `target`, with the same operators. -/
theorem RespectsArity.succ_iff (ha : p.RespectsArity) (hops : q.ops = p.ops) {source target : Key}
    {f g : Operator} (hs : p.operator? source = some f) (ht : p.operator? target = some g)
    (hout : ∀ k, q.outDegree k = p.outDegree k + if k = source then 1 else 0)
    (hin : ∀ k, q.inDegree k = p.inDegree k + if k = target then 1 else 0) :
    q.RespectsArity ↔
      (0 < p.outDegree source → f.multiOutput) ∧ (0 < p.inDegree target → g.multiInput) := by
  have hop : ∀ k, q.operator? k = p.operator? k := fun k ↦ by rw [operator?, hops, operator?]
  constructor
  · intro hq
    refine ⟨fun hpos ↦ hq.outputs ((hop _).trans hs) ?_, fun hpos ↦ hq.inputs ((hop _).trans ht) ?_⟩
    · rw [hout, if_pos rfl]
      omega
    · rw [hin, if_pos rfl]
      omega
  · rintro ⟨hf, hg⟩
    constructor
    · intro k op hk hlen
      rw [hop] at hk
      rw [hout] at hlen
      split at hlen
      next he =>
        subst he
        obtain rfl : f = op := Option.some.inj (hs.symm.trans hk)
        exact hf (by omega)
      next => exact ha.outputs hk hlen
    · intro k op hk hlen
      rw [hop] at hk
      rw [hin] at hlen
      split at hlen
      next he =>
        subst he
        obtain rfl : g = op := Option.some.inj (ht.symm.trans hk)
        exact hg (by omega)
      next => exact ha.inputs hk hlen

/-! ### Operators -/

/-- The edges do not mind further operators, nor other attributes. -/
theorem Linked.of_operators (h : p.Linked) {ops : Table Operator}
    (hops : ∀ k, p.contains k → ops.contains k) : ({ p with ops } : Plan).Linked where
  pruned_succs := h.pruned_succs
  pruned_preds := h.pruned_preds
  nodup_successors := h.nodup_successors
  nodup_predecessors := h.nodup_predecessors
  not_mem_successors_self := h.not_mem_successors_self
  contains_of_mem hb := ⟨hops _ (h.contains_of_mem hb).1, hops _ (h.contains_of_mem hb).2⟩
  mem_successors_iff := h.mem_successors_iff

theorem Linked.discard (h : p.Linked) (k : Key) : (p.discard k).Linked where
  pruned_succs := (h.pruned_succs.erase k).updateAll _ _
  pruned_preds := (h.pruned_preds.updateAll _ _).erase k
  nodup_successors j := by
    rw [successors_discard h]
    split
    · exact .nil
    · exact (h.nodup_successors j).erase k
  nodup_predecessors j := by
    rw [predecessors_discard h]
    split
    · exact .nil
    · exact (h.nodup_predecessors j).erase k
  not_mem_successors_self j hj :=
    h.not_mem_successors_self j ((mem_successors_discard h).1 hj).2.2
  contains_of_mem hb := by
    obtain ⟨ha, hb, hab⟩ := (mem_successors_discard h).1 hb
    have hends := h.contains_of_mem hab
    exact ⟨contains_discard.2 ⟨ha, hends.1⟩, contains_discard.2 ⟨hb, hends.2⟩⟩
  mem_successors_iff a b := by
    rw [mem_successors_discard h, mem_predecessors_discard h, h.mem_successors_iff]

theorem RespectsArity.discard (ha : p.RespectsArity) (h : p.Linked) (k : Key) :
    (p.discard k).RespectsArity := by
  refine ha.of_le (fun j op hop ↦ ?_) (fun j ↦ ?_) (fun j ↦ ?_)
  · rw [operator?_discard] at hop
    split at hop
    · cases hop
    · exact hop
  · rw [outDegree, successors_discard h]
    split
    · exact Nat.zero_le _
    · exact List.length_erase_le
  · rw [inDegree, predecessors_discard h]
    split
    · exact Nat.zero_le _
    · exact List.length_erase_le

/-! ### Single edges -/

theorem Linked.link_iff (h : p.Linked) {source target : Key} (hs : p.contains source)
    (ht : p.contains target) :
    (p.link source target).Linked ↔ source ≠ target ∧ target ∉ p.successors source := by
  constructor
  · intro hl
    refine ⟨fun he ↦ ?_, fun hmem ↦ ?_⟩
    · exact hl.not_mem_successors_self source (mem_successors_link.2 (.inr ⟨rfl, he⟩))
    · have hn := hl.nodup_successors source
      rw [successors_link, if_pos rfl, List.nodup_append_comm, List.singleton_append] at hn
      exact (List.nodup_cons.1 hn).1 hmem
  · rintro ⟨hne, hnot⟩
    refine ⟨h.pruned_succs.update _ _, h.pruned_preds.update _ _, fun j ↦ ?_, fun j ↦ ?_,
      fun j hj ↦ ?_, fun {a b} hb ↦ ?_, fun a b ↦ ?_⟩
    · rw [successors_link]
      split
      · exact List.nodup_append_comm.2 ((h.nodup_successors source).cons hnot)
      · exact h.nodup_successors j
    · rw [predecessors_link]
      split
      · rw [h.mem_successors_iff] at hnot
        exact List.nodup_append_comm.2 ((h.nodup_predecessors target).cons hnot)
      · exact h.nodup_predecessors j
    · rcases mem_successors_link.1 hj with hj | ⟨rfl, he⟩
      · exact h.not_mem_successors_self j hj
      · exact hne he
    · rcases mem_successors_link.1 hb with hb | ⟨rfl, rfl⟩
      · exact h.contains_of_mem hb
      · exact ⟨hs, ht⟩
    · rw [mem_successors_link, mem_predecessors_link, h.mem_successors_iff]

theorem RespectsArity.link_iff (ha : p.RespectsArity) {source target : Key} {f g : Operator}
    (hs : p.operator? source = some f) (ht : p.operator? target = some g) :
    (p.link source target).RespectsArity ↔
      (0 < p.outDegree source → f.multiOutput) ∧ (0 < p.inDegree target → g.multiInput) := by
  refine ha.succ_iff (q := p.link source target) rfl hs ht (fun k ↦ ?_) (fun k ↦ ?_)
  · rw [outDegree, successors_link, outDegree]
    split <;> simp_all
  · rw [inDegree, predecessors_link, inDegree]
    split <;> simp_all

theorem Linked.unlink (h : p.Linked) (source target : Key) : (p.unlink source target).Linked where
  pruned_succs := h.pruned_succs.update _ _
  pruned_preds := h.pruned_preds.update _ _
  nodup_successors j := by
    rw [successors_unlink]
    split
    · exact (h.nodup_successors source).erase target
    · exact h.nodup_successors j
  nodup_predecessors j := by
    rw [predecessors_unlink]
    split
    · exact (h.nodup_predecessors target).erase source
    · exact h.nodup_predecessors j
  not_mem_successors_self j hj :=
    h.not_mem_successors_self j ((mem_successors_unlink h).1 hj).1
  contains_of_mem hb := h.contains_of_mem ((mem_successors_unlink h).1 hb).1
  mem_successors_iff a b := by
    rw [mem_successors_unlink h, mem_predecessors_unlink h, h.mem_successors_iff]

theorem RespectsArity.unlink (ha : p.RespectsArity) (source target : Key) :
    (p.unlink source target).RespectsArity := by
  refine ha.of_le (fun j op hop ↦ hop) (fun j ↦ ?_) (fun j ↦ ?_)
  · rw [outDegree, successors_unlink]
    split
    next hj => exact hj ▸ List.length_erase_le
    next => exact Nat.le_refl _
  · rw [inDegree, predecessors_unlink]
    split
    next hj => exact hj ▸ List.length_erase_le
    next => exact Nat.le_refl _

/-! ### Replacement -/

theorem Linked.substitute (h : p.Linked) (old : Key) {new : Operator}
    (hnew : ¬p.contains new.key) : (p.substitute old new).Linked where
  pruned_succs := ((h.pruned_succs.erase old).updateAll _ _).set _ _
  pruned_preds := ((h.pruned_preds.erase old).updateAll _ _).set _ _
  nodup_successors j := by
    rw [successors_substitute h]
    split
    · exact h.nodup_successors old
    · split
      · exact .nil
      · exact Adjacency.nodup_rename (h.nodup_successors j) fun hj ↦ hnew (h.contains_of_mem hj).2
  nodup_predecessors j := by
    rw [predecessors_substitute h]
    split
    · exact h.nodup_predecessors old
    · split
      · exact .nil
      · exact Adjacency.nodup_rename (h.nodup_predecessors j) fun hj ↦
          hnew (h.contains_of_mem ((h.mem_successors_iff _ _).2 hj)).1
  not_mem_successors_self j hj :=
    h.not_mem_successors_self _ ((mem_successors_substitute h hnew).1 hj).2.2
  contains_of_mem hb := by
    obtain ⟨ha, hb, hab⟩ := (mem_successors_substitute h hnew).1 hb
    have hends := h.contains_of_mem hab
    exact ⟨contains_substitute_of_renamedFrom ha hends.1,
      contains_substitute_of_renamedFrom hb hends.2⟩
  mem_successors_iff a b := by
    rw [mem_successors_substitute h hnew, mem_predecessors_substitute h hnew,
      h.mem_successors_iff]

theorem degree_substitute (h : p.Linked) (old : Key) (new : Operator) (d : Direction) (j : Key) :
    (p.substitute old new).degree d j =
      if j = new.key then p.degree d old else if j = old then 0 else p.degree d j := by
  cases d with
  | inputs =>
    show ((p.substitute old new).predecessors j).length = _
    rw [predecessors_substitute h, apply_ite List.length, apply_ite List.length,
      Adjacency.length_rename]
    rfl
  | outputs =>
    show ((p.substitute old new).successors j).length = _
    rw [successors_substitute h, apply_ite List.length, apply_ite List.length,
      Adjacency.length_rename]
    rfl

/-- The new operator has to allow what it inherits; nobody else has more edges than before. -/
theorem RespectsArity.substitute_iff (ha : p.RespectsArity) (h : p.Linked) (old : Key)
    {new : Operator} :
    (p.substitute old new).RespectsArity ↔
      (1 < p.outDegree old → new.multiOutput) ∧ (1 < p.inDegree old → new.multiInput) := by
  have hboth : (1 < p.outDegree old → new.multiOutput) ∧ (1 < p.inDegree old → new.multiInput) ↔
      ∀ d, 1 < p.degree d old → new.allowsMany d :=
    ⟨fun hnew d ↦ Direction.casesOn d hnew.2 hnew.1, fun hnew ↦ ⟨hnew .outputs, hnew .inputs⟩⟩
  rw [hboth, respectsArity_iff]
  constructor
  · intro hs d hlen
    refine hs d new.key new (by rw [operator?_substitute, if_pos rfl]) ?_
    rwa [degree_substitute h, if_pos rfl]
  · intro hnew d j op hop hlen
    rw [operator?_substitute] at hop
    rw [degree_substitute h] at hlen
    split at hop
    next he =>
      rw [if_pos he] at hlen
      exact Option.some.inj hop ▸ hnew d hlen
    next he =>
      split at hop
      · cases hop
      next hold =>
        rw [if_neg he, if_neg hold] at hlen
        exact respectsArity_iff.1 ha d j op hop hlen

/-! ### Insertion into an edge -/

theorem Linked.of_reroute (h : p.Linked) {after between before : Key}
    (hedge : before ∈ p.successors after) (hr : (p.reroute after between before).Linked) :
    between ≠ after ∧ between ≠ before ∧ between ∉ p.successors after ∧
      before ∉ p.successors between := by
  have hself := hr.not_mem_successors_self between
  have hne : between ≠ after := fun he ↦
    hself ((mem_successors_reroute hedge).2 (.inr (.inl ⟨he, rfl⟩)))
  have hne' : between ≠ before := fun he ↦
    hself ((mem_successors_reroute hedge).2 (.inr (.inr ⟨rfl, he⟩)))
  -- An edge that was there already would be repeated, in the list of `after` or of `between`.
  refine ⟨hne, hne', ?_, fun hmem ↦ ?_⟩
  · have hn := hr.nodup_successors after
    rw [successors_reroute, if_pos rfl, if_neg hne.symm, List.append_nil] at hn
    exact (Adjacency.nodup_rename_iff (h.nodup_successors after) hedge hne').1 hn
  · have hn := hr.nodup_successors between
    rw [successors_reroute, if_neg hne, if_pos rfl] at hn
    exact (List.nodup_append.1 hn).2.2 _ hmem _ (List.mem_singleton_self _) rfl

theorem Linked.reroute (h : p.Linked) {after between before : Key}
    (hedge : before ∈ p.successors after) (hb : p.contains between) (hne : between ≠ after)
    (hne' : between ≠ before) (hnot : between ∉ p.successors after)
    (hnot' : before ∉ p.successors between) : (p.reroute after between before).Linked where
  pruned_succs := (h.pruned_succs.update _ _).update _ _
  pruned_preds := (h.pruned_preds.update _ _).update _ _
  nodup_successors j := by
    rw [successors_reroute]
    exact Adjacency.nodup_rerouted (h.nodup_successors j) hne (fun hj ↦ hj ▸ hnot)
      (fun hj ↦ hj ▸ hnot')
  nodup_predecessors j := by
    rw [predecessors_reroute]
    rw [h.mem_successors_iff] at hnot hnot'
    exact Adjacency.nodup_rerouted (h.nodup_predecessors j) hne' (fun hj ↦ hj ▸ hnot')
      (fun hj ↦ hj ▸ hnot)
  not_mem_successors_self j hj := by
    rcases (mem_successors_reroute hedge).1 hj with ⟨hj, -⟩ | ⟨rfl, he⟩ | ⟨rfl, he⟩
    · exact h.not_mem_successors_self j hj
    · exact hne he.symm
    · exact hne' he
  contains_of_mem {a b} hab := by
    have hends := h.contains_of_mem hedge
    rcases (mem_successors_reroute hedge).1 hab with ⟨hab, -⟩ | ⟨rfl, rfl⟩ | ⟨rfl, rfl⟩
    · exact h.contains_of_mem hab
    · exact ⟨hends.1, hb⟩
    · exact ⟨hb, hends.2⟩
  mem_successors_iff a b := by
    have hedge' := (h.mem_successors_iff _ _).1 hedge
    rw [mem_successors_reroute hedge, mem_predecessors_reroute hedge', h.mem_successors_iff]

theorem Linked.reroute_iff (h : p.Linked) {after between before : Key}
    (hedge : before ∈ p.successors after) (hb : p.contains between) :
    (p.reroute after between before).Linked ↔
      between ≠ after ∧ between ≠ before ∧ between ∉ p.successors after ∧
        before ∉ p.successors between :=
  ⟨h.of_reroute hedge, fun ⟨hne, hne', hnot, hnot'⟩ ↦ h.reroute hedge hb hne hne' hnot hnot'⟩

theorem RespectsArity.reroute_iff (ha : p.RespectsArity) {after between before : Key}
    {op : Operator} (hb : p.operator? between = some op) :
    (p.reroute after between before).RespectsArity ↔
      (0 < p.outDegree between → op.multiOutput) ∧ (0 < p.inDegree between → op.multiInput) := by
  refine ha.succ_iff (q := p.reroute after between before) rfl hb hb (fun k ↦ ?_) (fun k ↦ ?_)
  · rw [outDegree, successors_reroute, outDegree, List.length_append]
    grind [Adjacency.length_rename]
  · rw [inDegree, predecessors_reroute, inDegree, List.length_append]
    grind [Adjacency.length_rename]

/-! ### Removal with reconnection -/

theorem Linked.of_bypass (h : p.Linked) {k : Key} (hk : p.inDegree k ≤ 1)
    (hb : (p.bypass k).Linked) {before : Key} (hbefore : k ∈ p.successors before) :
    before ∉ p.successors k ∧ ∀ s ∈ p.successors k, s ∉ p.successors before := by
  have hself := h.not_mem_successors_self k
  have hne : before ≠ k := fun he ↦ hself (he ▸ hbefore)
  refine ⟨fun hloop ↦ ?_, fun s hs hdup ↦ ?_⟩
  · exact hb.not_mem_successors_self before
      ((mem_successors_bypass h hk).2 ⟨hne, hne, .inr ⟨hbefore, hloop⟩⟩)
  · have hn := hb.nodup_successors before
    rw [successors_bypass h hk, if_neg hne,
      Adjacency.nodup_replaceFirst (h.nodup_successors before) (h.nodup_successors k)] at hn
    exact hself (hn hbefore s hs hdup ▸ hs)

theorem Linked.pruned_succs_bypass (h : p.Linked) (k : Key) :
    Adjacency.Pruned (p.bypass k).succs := by
  rw [Plan.bypass]
  split
  · exact h.pruned_succs.erase k
  · exact (h.pruned_succs.erase k).update _ _

theorem Linked.pruned_preds_bypass (h : p.Linked) (k : Key) :
    Adjacency.Pruned (p.bypass k).preds := by
  rw [Plan.bypass]
  split <;> exact (h.pruned_preds.erase k).updateAll _ _

theorem Linked.bypass (h : p.Linked) {k : Key} (hk : p.inDegree k ≤ 1)
    (hloop : ∀ before, k ∈ p.successors before → before ∉ p.successors k)
    (hdup : ∀ before, k ∈ p.successors before → ∀ s ∈ p.successors k, s ∉ p.successors before) :
    (p.bypass k).Linked where
  pruned_succs := h.pruned_succs_bypass k
  pruned_preds := h.pruned_preds_bypass k
  nodup_successors j := by
    rw [successors_bypass h hk]
    split
    · exact .nil
    · refine (Adjacency.nodup_replaceFirst (h.nodup_successors j) (h.nodup_successors k)).2 ?_
      exact fun hj s hs hsj ↦ absurd hsj (hdup j hj s hs)
  nodup_predecessors j := by
    rw [predecessors_bypass h hk]
    split
    · exact .nil
    · refine (Adjacency.nodup_replaceFirst (h.nodup_predecessors j) (h.nodup_predecessors k)).2 ?_
      -- Seen from above: `before` would feed `j` directly and by way of `k`.
      intro hj before hbefore hbeforej
      rw [← h.mem_successors_iff] at hj hbefore hbeforej
      exact absurd hbeforej (hdup before hbefore j hj)
  not_mem_successors_self j hj := by
    obtain ⟨-, -, hj | ⟨hj, hj'⟩⟩ := (mem_successors_bypass h hk).1 hj
    · exact h.not_mem_successors_self j hj
    · exact hloop j hj hj'
  contains_of_mem {a b} hab := by
    obtain ⟨ha, hb, hab⟩ := (mem_successors_bypass h hk).1 hab
    rw [contains_bypass, contains_bypass]
    rcases hab with hab | ⟨hak, hkb⟩
    · exact ⟨⟨ha, (h.contains_of_mem hab).1⟩, hb, (h.contains_of_mem hab).2⟩
    · exact ⟨⟨ha, (h.contains_of_mem hak).1⟩, hb, (h.contains_of_mem hkb).2⟩
  mem_successors_iff a b := by
    simp only [mem_successors_bypass h hk, mem_predecessors_bypass h hk, h.mem_successors_iff,
      and_comm]

/-- The gap can be closed unless the predecessor would feed itself, or feed someone twice. -/
theorem Linked.bypass_iff (h : p.Linked) {k : Key} (hk : p.inDegree k ≤ 1) :
    (p.bypass k).Linked ↔ ∀ before, k ∈ p.successors before →
      before ∉ p.successors k ∧ ∀ s ∈ p.successors k, s ∉ p.successors before :=
  ⟨fun hb _ ↦ h.of_bypass hk hb, fun hfree ↦ h.bypass hk (fun before hbefore ↦
    (hfree before hbefore).1) fun before hbefore ↦ (hfree before hbefore).2⟩

/-- The predecessor has to allow what it takes over. -/
theorem RespectsArity.bypass_iff (ha : p.RespectsArity) (h : p.Linked) {k : Key}
    (hk : p.inDegree k ≤ 1) :
    (p.bypass k).RespectsArity ↔ ∀ before op, k ∈ p.successors before →
      p.operator? before = some op → 1 < p.outDegree before - 1 + p.outDegree k →
        op.multiOutput := by
  have hout : ∀ before, k ∈ p.successors before →
      (p.bypass k).outDegree before = p.outDegree before - 1 + p.outDegree k := by
    intro before hbefore
    have hne : before ≠ k := (h.ne_of_mem_successors hbefore).symm
    rw [outDegree, successors_bypass h hk, if_neg hne,
      Adjacency.length_replaceFirst _ (h.nodup_successors before) hbefore, outDegree, outDegree]
  constructor
  · intro hb before op hbefore hop hlen
    have hne : before ≠ k := (h.ne_of_mem_successors hbefore).symm
    exact hb.outputs (by rw [operator?_bypass, if_neg hne, hop]) (hout before hbefore ▸ hlen)
  · intro hfree
    constructor
    · intro j op hop hlen
      rw [operator?_bypass] at hop
      split at hop
      · cases hop
      next hne =>
        by_cases hj : k ∈ p.successors j
        · exact hfree j op hj hop (hout j hj ▸ hlen)
        · rw [outDegree, successors_bypass h hk, if_neg hne,
            Adjacency.replaceFirst_of_not_mem _ hj] at hlen
          exact ha.outputs hop hlen
    · intro j op hop hlen
      rw [operator?_bypass] at hop
      split at hop
      · cases hop
      next hne =>
        refine ha.inputs hop (Nat.lt_of_lt_of_le hlen ?_)
        rw [inDegree, predecessors_bypass h hk, if_neg hne]
        exact Adjacency.length_replaceFirst_le (h.nodup_predecessors j) hk

/-! ### Two plans in one -/

theorem Linked.union (h : p.Linked) (hq : q.Linked) (hd : ∀ k, q.contains k → ¬p.contains k) :
    (p.union q).Linked where
  pruned_succs := h.pruned_succs.union hq.pruned_succs
  pruned_preds := h.pruned_preds.union hq.pruned_preds
  nodup_successors j := by
    rw [successors_union h hq hd]
    rcases h.eq_nil_or_eq_nil hq hd j with ⟨hj, -⟩ | ⟨hj, -⟩
    · rw [hj, List.nil_append]
      exact hq.nodup_successors j
    · rw [hj, List.append_nil]
      exact h.nodup_successors j
  nodup_predecessors j := by
    rw [predecessors_union h hq hd]
    rcases h.eq_nil_or_eq_nil hq hd j with ⟨-, hj⟩ | ⟨-, hj⟩
    · rw [hj, List.nil_append]
      exact hq.nodup_predecessors j
    · rw [hj, List.append_nil]
      exact h.nodup_predecessors j
  not_mem_successors_self j hj := by
    rw [successors_union h hq hd, List.mem_append] at hj
    exact hj.elim (h.not_mem_successors_self j) (hq.not_mem_successors_self j)
  contains_of_mem hb := by
    rw [successors_union h hq hd, List.mem_append] at hb
    rw [contains_union, contains_union]
    rcases hb with hb | hb
    · exact ⟨.inl (h.contains_of_mem hb).1, .inl (h.contains_of_mem hb).2⟩
    · exact ⟨.inr (hq.contains_of_mem hb).1, .inr (hq.contains_of_mem hb).2⟩
  mem_successors_iff a b := by
    rw [successors_union h hq hd, predecessors_union h hq hd, List.mem_append, List.mem_append,
      h.mem_successors_iff, hq.mem_successors_iff]

theorem degree_union (h : p.Linked) (hq : q.Linked) (hd : ∀ k, q.contains k → ¬p.contains k)
    (d : Direction) (j : Key) : (p.union q).degree d j = p.degree d j + q.degree d j := by
  cases d with
  | inputs =>
    show ((p.union q).predecessors j).length = _
    rw [predecessors_union h hq hd, List.length_append]
    rfl
  | outputs =>
    show ((p.union q).successors j).length = _
    rw [successors_union h hq hd, List.length_append]
    rfl

/-- An operator of the union comes from one of the plans, and the other has no edges for it. -/
theorem RespectsArity.union (ha : p.RespectsArity) (haq : q.RespectsArity) (h : p.Linked)
    (hq : q.Linked) (hd : ∀ k, q.contains k → ¬p.contains k) : (p.union q).RespectsArity := by
  rw [respectsArity_iff]
  intro d j op hop hlen
  rw [degree_union h hq hd] at hlen
  rw [operator?_union, Option.or_eq_some_iff] at hop
  rcases hop with hop | ⟨hnone, hop⟩
  · have hzero := h.degree_eq_zero (hd j (contains_iff.2 ⟨op, hop⟩)) d
    exact respectsArity_iff.1 haq d j op hop (by omega)
  · have hqj : ¬q.contains j := fun hj ↦ by
      obtain ⟨op', hop'⟩ := contains_iff.1 hj
      cases hnone.symm.trans hop'
    have hzero := hq.degree_eq_zero hqj d
    exact respectsArity_iff.1 ha d j op hop (by omega)

end Plan

end Dataflow
