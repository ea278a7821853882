import Dataflow.Proofs.Atomicity
import Dataflow.Proofs.Cycles

/-!
# What is left when operators are taken out

`Plan.Thins p q` says that `q` is what is left of `p`: its operators are operators of `p`, as they
were, and a path leads from one of them to another exactly if one did before. Two ways of taking
operators out are shown to be of this kind. The gap that an operator leaves may be closed, cycles or
no cycles (`Linked.thins_bypass`). And operators may be taken out without closing gaps, provided
that no path leads from them to one that is left (`Linked.thins_discard`); this is the case for what
lies below an operator, but only in a plan without cycles.
-/

namespace Dataflow

namespace Plan

variable {p q r : Plan}

/-! ### Several operators taken out -/

theorem operator?_foldl_discard (ks : List Key) (j : Key) :
    (ks.foldl discard p).operator? j = if j ∈ ks then none else p.operator? j := by
  induction ks generalizing p with
  | nil => rfl
  | cons k ks ih =>
    rw [List.foldl_cons, ih, operator?_discard]
    by_cases hj : j = k <;> simp [hj]

theorem contains_foldl_discard {ks : List Key} {j : Key} :
    (ks.foldl discard p).contains j ↔ j ∉ ks ∧ p.contains j := by
  simp only [contains_iff, operator?_foldl_discard]
  split <;> simp_all

/-- The operators that are left lose the others from their successors. -/
theorem successors_foldl_discard (h : p.Linked) (ks : List Key) (j : Key) :
    (ks.foldl discard p).successors j =
      if j ∈ ks then [] else (p.successors j).filter (· ∉ ks) := by
  induction ks generalizing p with
  | nil => exact (List.filter_eq_self.2 fun _ _ ↦ decide_eq_true List.not_mem_nil).symm
  | cons k ks ih =>
    rw [List.foldl_cons, ih (h.discard k), successors_discard h]
    by_cases hj : j = k
    · simp [hj]
    · rw [if_neg hj, (h.nodup_successors j).erase_eq_filter, List.filter_filter]
      simp only [List.mem_cons, hj, false_or, not_or]
      split
      · rfl
      · refine List.filter_congr fun x _ ↦ Bool.eq_iff_iff.2 ?_
        simp [and_comm]

theorem mem_successors_foldl_discard (h : p.Linked) {ks : List Key} {a b : Key} :
    b ∈ (ks.foldl discard p).successors a ↔ a ∉ ks ∧ b ∉ ks ∧ b ∈ p.successors a := by
  rw [successors_foldl_discard h]
  split <;> simp_all [and_comm]

/-! ### What is left of a plan -/

/-- The operators of `q` are operators of `p`, as they were. -/
def Covers (p q : Plan) : Prop :=
  ∀ k op, q.operator? k = some op → p.operator? k = some op

/-- **What is left.** The operators of `q` are operators of `p`, and the paths between them are
those that there were. -/
structure Thins (p q : Plan) : Prop where
  covers : p.Covers q
  pathExists_iff : ∀ {a b}, q.contains a → q.contains b → (q.pathExists a b ↔ p.pathExists a b)

theorem Covers.contains (h : p.Covers q) {k : Key} (hk : q.contains k) : p.contains k := by
  obtain ⟨op, hop⟩ := contains_iff.1 hk
  exact contains_iff.2 ⟨op, h k op hop⟩

theorem Covers.refl (p : Plan) : p.Covers p :=
  fun _ _ ↦ id

theorem Covers.trans (h : p.Covers q) (h' : q.Covers r) : p.Covers r :=
  fun k op hop ↦ h k op (h' k op hop)

theorem Covers.keys_subset (h : p.Covers q) : q.keys ⊆ p.keys :=
  fun _ hk ↦ mem_keys_iff.2 (h.contains (mem_keys_iff.1 hk))

/-- A plan of which something is missing is smaller. -/
theorem Covers.size_lt (h : p.Covers q) {k : Key} (hk : p.contains k) (hnot : ¬q.contains k) :
    q.size < p.size := by
  have hnodup : (k :: q.keys).Nodup := (nodup_keys q).cons (mt mem_keys_iff.1 hnot)
  have hsub : k :: q.keys ⊆ p.keys := List.cons_subset.2 ⟨mem_keys_iff.2 hk, h.keys_subset⟩
  have hlength := (hnodup.subperm hsub).length_le
  rwa [List.length_cons, length_keys, length_keys] at hlength

theorem Thins.refl (p : Plan) : p.Thins p :=
  ⟨.refl p, fun _ _ ↦ Iff.rfl⟩

theorem Thins.trans (h : p.Thins q) (h' : q.Thins r) : p.Thins r where
  covers := h.covers.trans h'.covers
  pathExists_iff ha hb := (h'.pathExists_iff ha hb).trans
    (h.pathExists_iff (h'.covers.contains ha) (h'.covers.contains hb))

/-- What is left of a plan without cycles has none. -/
theorem Thins.acyclic (h : p.Thins q) (hq : q.Linked) (hacyclic : p.Acyclic) : q.Acyclic := by
  intro k hk
  have hc := (hq.contains_of_pathExists hk).1
  exact hacyclic k ((h.pathExists_iff hc hc).1 hk)

/-! ### Closing the gap -/

/-- An edge that closes the gap stands for a path over the operator that is gone. -/
theorem Linked.pathExists_of_bypass (h : p.Linked) {k a b : Key} (hk : p.inDegree k ≤ 1)
    (hab : (p.bypass k).pathExists a b) : p.pathExists a b := by
  have hedge : ∀ {c d}, d ∈ (p.bypass k).successors c → p.pathExists c d := fun hcd ↦ by
    obtain ⟨-, -, hcd | ⟨hck, hkd⟩⟩ := (mem_successors_bypass h hk).1 hcd
    · exact pathExists_of_mem hcd
    · exact pathExists_trans (pathExists_of_mem hck) (pathExists_of_mem hkd)
  have hleads := Plan.pathExists_iff.1 hab
  clear hab
  induction hleads with
  | single hstep => exact hedge hstep
  | tail _ hstep ih => exact pathExists_trans ih (hedge hstep)

/-- A path goes on without `k`, or it has come to `k` from an operator that can still be
reached. -/
theorem Linked.leads_bypass (h : p.Linked) {k a b : Key} (hk : p.inDegree k ≤ 1) (ha : a ≠ k)
    (hab : Adjacency.Leads p.succs a b) :
    (b ≠ k → Adjacency.Leads (p.bypass k).succs a b) ∧
      (b = k → ∃ c, c ≠ k ∧ k ∈ p.successors c ∧
        Relation.ReflTransGen (Adjacency.Step (p.bypass k).succs) a c) := by
  have hedge : ∀ {c d}, c ≠ k → d ≠ k → d ∈ p.successors c ∨ k ∈ p.successors c ∧
      d ∈ p.successors k → Adjacency.Step (p.bypass k).succs c d := fun hc hd hcd ↦
    (mem_successors_bypass h hk).2 ⟨hc, hd, hcd⟩
  induction hab with
  | single hstep =>
    exact ⟨fun hb ↦ .single (hedge ha hb (.inl hstep)), fun hb ↦ ⟨a, ha, hb ▸ hstep, .refl⟩⟩
  | @tail c b _ hstep ih =>
    by_cases hc : c = k
    · -- The path has just passed `k`, and the edge that closes the gap takes it further.
      subst hc
      obtain ⟨d, hd, hdc, had⟩ := ih.2 rfl
      refine ⟨fun hb ↦ .tail' had (hedge hd hb (.inr ⟨hdc, hstep⟩)), fun hb ↦ ?_⟩
      exact absurd (hb ▸ hstep) (h.not_mem_successors_self c)
    · refine ⟨fun hb ↦ .tail (ih.1 hc) (hedge hc hb (.inl hstep)), fun hb ↦ ?_⟩
      exact ⟨c, hc, hb ▸ hstep, (ih.1 hc).to_reflTransGen⟩

theorem Linked.pathExists_bypass_iff (h : p.Linked) {k a b : Key} (hk : p.inDegree k ≤ 1)
    (ha : a ≠ k) (hb : b ≠ k) : (p.bypass k).pathExists a b ↔ p.pathExists a b :=
  ⟨h.pathExists_of_bypass hk, fun hab ↦
    pathExists_iff.2 ((h.leads_bypass hk ha (pathExists_iff.1 hab)).1 hb)⟩

theorem covers_bypass (k : Key) : p.Covers (p.bypass k) := by
  intro j op hop
  rw [operator?_bypass] at hop
  split at hop
  · cases hop
  · exact hop

/-- **Closing the gap keeps all paths.** -/
theorem Linked.thins_bypass (h : p.Linked) {k : Key} (hk : p.inDegree k ≤ 1) :
    p.Thins (p.bypass k) where
  covers := covers_bypass k
  pathExists_iff ha hb :=
    h.pathExists_bypass_iff hk (contains_bypass.1 ha).1 (contains_bypass.1 hb).1

/-! ### Leaving gaps -/

theorem covers_foldl_discard (ks : List Key) : p.Covers (ks.foldl discard p) := by
  intro j op hop
  rw [operator?_foldl_discard] at hop
  split at hop
  · cases hop
  · exact hop

/-- **What no path leads out of can be taken out.** -/
theorem Linked.thins_discard (h : p.Linked) {ks : List Key}
    (hks : ∀ j ∈ ks, ∀ k, p.pathExists j k → k ∈ ks) : p.Thins (ks.foldl Plan.discard p) where
  covers := covers_foldl_discard ks
  pathExists_iff {a b} ha hb := by
    have hb' := (contains_foldl_discard.1 hb).1
    simp only [Plan.pathExists_iff]
    have hedge : ∀ c d, Adjacency.Step (ks.foldl Plan.discard p).succs c d →
        Adjacency.Step p.succs c d := fun c d hcd ↦ ((mem_successors_foldl_discard h).1 hcd).2.2
    refine ⟨Relation.TransGen.mono hedge a b, fun hab ↦ ?_⟩
    -- Nothing on the path has been taken out, or its end would have been as well.
    have hleft : ∀ {c}, Adjacency.Leads p.succs c b → c ∉ ks := fun hcb hc ↦
      hb' (hks _ hc b (Plan.pathExists_iff.2 hcb))
    have ha' := hleft hab
    clear ha
    induction hab using Relation.TransGen.head_induction_on with
    | single hstep => exact .single ((mem_successors_foldl_discard h).2 ⟨ha', hb', hstep⟩)
    | head hstep hcb ih =>
      exact .head ((mem_successors_foldl_discard h).2 ⟨ha', hleft hcb, hstep⟩) (ih (hleft hcb))

theorem Linked.trimBelow_eq (h : p.Linked) {k : Key} (hk : p.contains k) :
    p.trimBelow k =
      let ks := Key.sort ((p.below k).filter (· ≠ k))
      ⟨.ok (ks.filterMap p.operator?), ks.foldl Plan.discard p⟩ :=
  trim_eq hk (nodup_below k) fun _ ↦ h.contains_of_mem_below

theorem mem_sort_below {k j : Key} :
    j ∈ Key.sort ((p.below k).filter (· ≠ k)) ↔ p.pathExists k j ∧ j ≠ k := by
  rw [Key.mem_sort, List.mem_filter, decide_eq_true_iff, pathExists, List.contains_iff_mem]

/-- **Without cycles, trimming keeps all paths.** -/
theorem Linked.thins_trimBelow (h : p.Linked) (hacyclic : p.Acyclic) {k : Key}
    (hk : p.contains k) : p.Thins (p.trimBelow k).plan := by
  rw [h.trimBelow_eq hk]
  refine h.thins_discard fun i hi j hij ↦ ?_
  have hkj : p.pathExists k j := pathExists_trans (mem_sort_below.1 hi).1 hij
  exact mem_sort_below.2 ⟨hkj, fun hj ↦ hacyclic k (hj ▸ hkj)⟩

theorem Linked.contains_trimBelow_iff (h : p.Linked) {k j : Key} (hk : p.contains k) :
    (p.trimBelow k).plan.contains j ↔ ¬(p.pathExists k j ∧ j ≠ k) ∧ p.contains j := by
  rw [h.trimBelow_eq hk, ← mem_sort_below]
  exact contains_foldl_discard

theorem Linked.covers_trimBelow (h : p.Linked) {k : Key} (hk : p.contains k) :
    p.Covers (p.trimBelow k).plan := by
  rw [h.trimBelow_eq hk]
  exact covers_foldl_discard _

end Plan

end Dataflow
