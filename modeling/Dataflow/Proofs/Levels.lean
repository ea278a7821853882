import Dataflow.Proofs.Preorder
import Mathlib.Order.Bounds.Basic
import Mathlib.Order.Lattice.Nat

/-!
# Dependency order goes level by level

The level of an operator is the number of edges on the longest path to it from a root
(`Plan.level`). Without cycles there is a longest one, because an order in which all edges lead
forward bounds their lengths. Three things are needed of levels (`Plan.Levels`): roots have level
zero, an edge leads to a greater level, and every other operator is fed by one of the level just
below its own.

An ordering never looks at levels. It takes from the queue the operator that waits longest, and that
none of a lesser level is left is an invariant of the queue (`Release.Layered`): what waits is of
the level of the operator ordered last or of the next one, and in this order. An operator that joins
the queue is fed by the one ordered last, so its level is greater; all that feed it are ordered, so
its level is greater by one.

The reverse order goes by the longest path to a leaf (`Plan.height`), which is the level in the plan
with its edges turned round.
-/

namespace Dataflow

namespace Plan

variable {p : Plan} {u v w : Key} {n : Nat}

/-! ### Paths and their lengths -/

/-- A path with a number of edges. -/
inductive Path (p : Plan) (u : Key) : Nat → Key → Prop
  | nil : Path p u 0 u
  | concat {n : Nat} {v w : Key} (h : Path p u n v) (hw : w ∈ p.successors v) : Path p u (n + 1) w

theorem Path.cons (huv : v ∈ p.successors u) (h : p.Path v n w) : p.Path u (n + 1) w := by
  induction h with
  | nil => exact .concat .nil huv
  | concat _ hw ih => exact .concat ih hw

theorem Linked.path_reversed (h : p.Linked) (hp : p.Path u n v) : p.reversed.Path v n u := by
  induction hp with
  | nil => exact .nil
  | concat _ hw ih => exact .cons ((h.mem_successors_iff _ _).1 hw) ih

theorem Linked.path_reversed_iff (h : p.Linked) : p.reversed.Path v n u ↔ p.Path u n v :=
  ⟨h.reversed.path_reversed, h.path_reversed⟩

/-- A path is no longer than an order that goes with its edges. -/
theorem Path.le_idxOf {ks : List Key} (hks : ∀ u v, p.hasEdge u v → ks.idxOf u < ks.idxOf v)
    (h : p.Path u n v) : n ≤ ks.idxOf v := by
  induction h with
  | nil => exact Nat.zero_le _
  | @concat n v w _ hw ih =>
    have hlt := hks v w (hasEdge_iff.2 hw)
    omega

/-- The length of the longest path from a root. -/
noncomputable def level (p : Plan) (v : Key) : Nat :=
  sSup {n | ∃ root ∈ p.roots, p.Path root n v}

/-- The length of the longest path to a leaf. -/
noncomputable def height (p : Plan) (v : Key) : Nat :=
  sSup {n | ∃ leaf ∈ p.leaves, p.Path v n leaf}

/-- Turning the edges round makes roots of the leaves and turns paths round. -/
theorem Linked.lengths_reversed (h : p.Linked) (v : Key) :
    {n | ∃ root ∈ p.reversed.roots, p.reversed.Path root n v} =
      {n | ∃ leaf ∈ p.leaves, p.Path v n leaf} := by
  ext n
  exact exists_congr fun leaf ↦ and_congr_right fun _ ↦ h.path_reversed_iff

theorem Linked.level_reversed (h : p.Linked) : p.reversed.level = p.height :=
  funext fun v ↦ congrArg sSup (h.lengths_reversed v)

/-- Back along edges one comes to a root, unless there is a cycle above. -/
theorem Linked.exists_path_of_root (h : p.Linked) (hv : v ∈ p.clearAbove) :
    ∃ n, ∃ root ∈ p.roots, p.Path root n v := by
  refine h.clear_induction (motive := fun v ↦ ∃ n, ∃ root ∈ p.roots, p.Path root n v)
    (fun v hv ih ↦ ?_) hv
  rcases hpreds : p.predecessors v with - | ⟨u, rest⟩
  · have hroot : v ∈ p.roots := h.mem_roots_iff.2 ⟨(h.mem_clearAbove_iff.1 hv).1, hpreds⟩
    exact ⟨0, v, hroot, .nil⟩
  · have hu : u ∈ p.predecessors v := hpreds ▸ List.mem_cons_self ..
    obtain ⟨n, root, hroot, hpath⟩ := ih u hu
    exact ⟨n + 1, root, hroot, hpath.concat ((h.mem_successors_iff u v).2 hu)⟩

section Acyclic

variable (h : p.Linked) (hacyclic : p.Acyclic)

include h hacyclic

/-- **Without a cycle there is a longest path.** -/
theorem Linked.isGreatest_level (hv : p.contains v) :
    IsGreatest {n | ∃ root ∈ p.roots, p.Path root n v} (p.level v) := by
  obtain ⟨ks, -, -, hks⟩ := h.exists_dependencyOrder hacyclic
  have hbound : BddAbove {n | ∃ root ∈ p.roots, p.Path root n v} := by
    refine ⟨ks.idxOf v, ?_⟩
    rintro n ⟨root, -, hpath⟩
    exact hpath.le_idxOf hks
  have hclear : v ∈ p.clearAbove := h.acyclic_iff_clearAbove.1 hacyclic ▸ mem_keys_iff.2 hv
  have hnonempty : {n | ∃ root ∈ p.roots, p.Path root n v}.Nonempty :=
    h.exists_path_of_root hclear
  exact ⟨Nat.sSup_mem hnonempty hbound, fun n hn ↦ le_csSup hbound hn⟩

theorem Linked.isGreatest_height (hv : p.contains v) :
    IsGreatest {n | ∃ leaf ∈ p.leaves, p.Path v n leaf} (p.height v) := by
  have hgreatest := h.reversed.isGreatest_level (h.acyclic_reversed_iff.2 hacyclic) (v := v) hv
  rwa [h.lengths_reversed, h.level_reversed] at hgreatest

end Acyclic

/-- **What there is to know of levels.** -/
structure Levels (p : Plan) (level : Key → Nat) : Prop where
  root : ∀ v ∈ p.roots, level v = 0
  lt : ∀ u v, v ∈ p.successors u → level u < level v
  /-- What is no root is fed from the level just below its own. -/
  exists_below : ∀ v, p.contains v → v ∉ p.roots →
    ∃ u ∈ p.predecessors v, level v = level u + 1

theorem Linked.levels (h : p.Linked) (hacyclic : p.Acyclic) : p.Levels p.level where
  root v hv := by
    obtain ⟨hin, hnil⟩ := h.mem_roots_iff.1 hv
    obtain ⟨⟨root, -, hpath⟩, -⟩ := h.isGreatest_level hacyclic hin
    generalize p.level v = n at hpath
    rcases hpath with - | ⟨-, hw⟩
    · rfl
    · have hmem := (h.mem_successors_iff _ _).1 hw
      rw [hnil] at hmem
      exact absurd hmem List.not_mem_nil
  lt u v huv := by
    obtain ⟨hu, hv⟩ := h.contains_of_mem huv
    obtain ⟨⟨root, hroot, hpath⟩, -⟩ := h.isGreatest_level hacyclic hu
    exact (h.isGreatest_level hacyclic hv).2 ⟨root, hroot, hpath.concat huv⟩
  exists_below v hv hnot := by
    obtain ⟨⟨root, hroot, hpath⟩, hmax⟩ := h.isGreatest_level hacyclic hv
    generalize hn : p.level v = n at hpath
    cases hpath with
    | nil => exact absurd hroot hnot
    | @concat n u _ hpath huv =>
      obtain ⟨hu, -⟩ := h.contains_of_mem huv
      obtain ⟨⟨root', hroot', hpath'⟩, hmax'⟩ := h.isGreatest_level hacyclic hu
      -- A longer path to `u` would go on to `v`.
      have hle : n ≤ p.level u := hmax' ⟨root, hroot, hpath⟩
      have hge : p.level u + 1 ≤ p.level v := hmax ⟨root', hroot', hpath'.concat huv⟩
      exact ⟨u, (h.mem_successors_iff u v).1 huv, by omega⟩

end Plan

namespace Release

variable {p : Plan} {level : Key → Nat} {next : Adjacency} {first r : Release} {due : List Key}
  {k : Key} {n : Nat}

/-! ### The queue -/

/-- Settling an operator may put it into the queue, as the last one, and changes nothing else of
what has been ordered or waits. -/
theorem settle_cases (r : Release) (k : Key) : (r.settle k).order = r.order ∧
    ((r.settle k).ready = r.ready ∨ (r.settle k).ready = r.ready ++ [k]) := by
  unfold settle
  rcases r.pending.get? k with - | n
  · exact ⟨rfl, .inl rfl⟩
  · dsimp only
    split
    · exact ⟨rfl, .inr rfl⟩
    · exact ⟨rfl, .inl rfl⟩

/-- **First in, first out.** What has been ordered and what waits, in this order, only ever grows at
the end. -/
theorem Moment.isPrefix (hr : Moment next first r due) :
    first.order ++ first.ready <+: r.order ++ r.ready := by
  induction hr with
  | start => exact List.prefix_rfl
  | @take r k rest _ hready ih =>
    show _ <+: (r.order ++ [k]) ++ rest
    rwa [List.append_assoc, List.singleton_append, ← hready]
  | @settle r k due _ ih =>
    obtain ⟨horder, hready | hready⟩ := settle_cases r k
    · rwa [horder, hready]
    · rw [horder, hready, ← List.append_assoc]
      exact ih.trans (List.prefix_append ..)

/-- **The queue holds at most two levels**, `n` and the one after it, where `n` is the level of the
operator ordered last. What is due to be settled is of a greater level. -/
structure Layered (level : Key → Nat) (r : Release) (due : List Key) (n : Nat) : Prop where
  sorted : (r.order ++ r.ready).Pairwise fun u v ↦ level u ≤ level v
  order_le : ∀ k ∈ r.order, level k ≤ n
  le_ready : ∀ k ∈ r.ready, n ≤ level k
  ready_le : ∀ k ∈ r.ready, level k ≤ n + 1
  lt_due : ∀ k ∈ due, n < level k

/-- At the start there are the roots. -/
theorem layered_start (hl : p.Levels level) : Layered level p.releaseForward [] 0 where
  sorted := by
    refine List.Pairwise.imp_of_mem (R := fun _ _ ↦ True) (fun {u v} hu _ _ ↦ ?_)
      (List.pairwise_of_forall fun _ _ ↦ trivial)
    exact (hl.root u hu).le.trans (Nat.zero_le _)
  order_le k hk := absurd hk List.not_mem_nil
  le_ready k _ := Nat.zero_le _
  ready_le k hk := (hl.root k hk).le.trans (Nat.zero_le _)
  lt_due k hk := absurd hk List.not_mem_nil

/-- The next operator to be ordered is of the least level that waits, and its level is the present
one from now on. -/
theorem Layered.take (hl : p.Levels level) (h : Layered level r [] n) {rest : List Key}
    (hr : r.ready = k :: rest) :
    Layered level { r with ready := rest, order := r.order ++ [k] } (p.successors k) (level k) := by
  have hsorted := h.sorted
  rw [hr] at hsorted
  obtain ⟨-, hready, -⟩ := List.pairwise_append.1 hsorted
  obtain ⟨hfirst, -⟩ := List.pairwise_cons.1 hready
  have hle : n ≤ level k := h.le_ready k (hr ▸ List.mem_cons_self ..)
  constructor
  · show ((r.order ++ [k]) ++ rest).Pairwise _
    rwa [List.append_assoc, List.singleton_append]
  · intro j hj
    rcases List.mem_append.1 hj with hj | hj
    · exact (h.order_le j hj).trans hle
    · rw [List.mem_singleton.1 hj]
  · exact hfirst
  · intro j hj
    have hj' := h.ready_le j (hr ▸ List.mem_cons_of_mem _ hj)
    show level j ≤ level k + 1
    omega
  · exact fun j hj ↦ hl.lt k j hj

/-- An operator that joins the queue is of the level after the present one. -/
theorem Layered.settle (hl : p.Levels level) (h : Layered level r (k :: due) n)
    (hp : Progress p (r.settle k) due) : Layered level (r.settle k) due n := by
  obtain ⟨hk, hdue⟩ := List.forall_mem_cons.1 h.lt_due
  obtain ⟨horder, hready | hready⟩ := settle_cases r k
  · exact {
      sorted := by rw [horder, hready]; exact h.sorted
      order_le := horder ▸ h.order_le
      le_ready := hready ▸ h.le_ready
      ready_le := hready ▸ h.ready_le
      lt_due := hdue }
  · have hmem : k ∈ (r.settle k).order ++ (r.settle k).ready := by simp [hready]
    obtain ⟨hin, -, hall⟩ := (hp.mem_iff k).1 hmem
    have hroot : k ∉ p.roots := fun hroot ↦ by
      rw [hl.root k hroot] at hk
      exact absurd hk (Nat.not_lt_zero n)
    obtain ⟨u, hu, hbelow⟩ := hl.exists_below k hin hroot
    have hu' : level u ≤ n := h.order_le u (horder ▸ hall u hu)
    have heq : level k = n + 1 := by omega
    constructor
    · rw [horder, hready, ← List.append_assoc]
      refine List.pairwise_append.2 ⟨h.sorted, List.pairwise_singleton .., fun j hj i hi ↦ ?_⟩
      rw [List.mem_singleton.1 hi, heq]
      rcases List.mem_append.1 hj with hj | hj
      · exact (h.order_le j hj).trans (Nat.le_succ n)
      · exact h.ready_le j hj
    · exact horder ▸ h.order_le
    · intro j hj
      rw [hready] at hj
      rcases List.mem_append.1 hj with hj | hj
      · exact h.le_ready j hj
      · exact List.mem_singleton.1 hj ▸ hk.le
    · intro j hj
      rw [hready] at hj
      rcases List.mem_append.1 hj with hj | hj
      · exact h.ready_le j hj
      · exact List.mem_singleton.1 hj ▸ heq.le
    · exact hdue

/-- **At every moment.** By induction on what has happened since the start. -/
theorem Moment.layered (h : p.Linked) (hl : p.Levels level)
    (hr : Moment p.succs p.releaseForward r due) : ∃ n, Layered level r due n := by
  induction hr with
  | start => exact ⟨0, layered_start hl⟩
  | take _ hready ih =>
    obtain ⟨n, hn⟩ := ih
    exact ⟨_, hn.take hl hready⟩
  | settle hr ih =>
    obtain ⟨n, hn⟩ := ih
    exact ⟨n, hn.settle hl (hr.settle.progress h)⟩

end Release

namespace Plan

variable {p : Plan} {level : Key → Nat}

/-! ### The two orders -/

/-- What is of level zero in an order is what it starts with, the roots. -/
theorem Linked.order_by_level (h : p.Linked) (hl : p.Levels level) {ks : List Key}
    (hks : p.dependencyOrder = .ok ks) :
    (ks.Pairwise fun u v ↦ level u ≤ level v) ∧ p.roots <+: ks ∧
      ks.filter (fun v ↦ level v = 0) = p.roots := by
  obtain ⟨hperm, -⟩ := h.perm_and_idxOf_lt hks
  have hrun : (p.releaseForward.run p.succs).order = ks := by
    rw [dependencyOrder, complete] at hks
    split at hks
    · exact Except.ok.inj hks
    · cases hks
  have hmoment : Release.Moment p.succs p.releaseForward (p.releaseForward.run p.succs) [] :=
    Release.Moment.start.run
  obtain ⟨n, hlayered⟩ := hmoment.layered h hl
  have hsorted := hlayered.sorted
  have hprefix := hmoment.isPrefix
  rw [Release.ready_run, List.append_nil, hrun] at hsorted hprefix
  obtain ⟨later, rfl⟩ : p.roots <+: ks := hprefix
  have hlater : ∀ v ∈ later, level v ≠ 0 := fun v hv ↦ by
    have hin : p.contains v := mem_keys_iff.1 (hperm.mem_iff.1 (List.mem_append_right _ hv))
    have hnot : v ∉ p.roots := fun hroot ↦
      (List.nodup_append.1 (nodup_of_perm hperm)).2.2 v hroot v hv rfl
    obtain ⟨u, -, hbelow⟩ := hl.exists_below v hin hnot
    omega
  refine ⟨hsorted, List.prefix_append .., ?_⟩
  rw [List.filter_append, List.filter_eq_self.2 fun v hv ↦ decide_eq_true (hl.root v hv),
    List.filter_eq_nil_iff.2 fun v hv ↦ by simpa using hlater v hv, List.append_nil]

/-- **Dependency order goes level by level.** Without a cycle every operator has a level, the length
of the longest path to it from a root, and a height, the length of the longest path from it to a
leaf. Levels never go down in dependency order, and those of level zero are the roots, in key order
and before all others. Heights never go down in reverse dependency order, which starts in the same
way with the leaves. -/
theorem dependency_orders_by_level (h : p.Linked) (hacyclic : p.Acyclic) :
    (∀ v, p.contains v → IsGreatest {n | ∃ root ∈ p.roots, p.Path root n v} (p.level v) ∧
      IsGreatest {n | ∃ leaf ∈ p.leaves, p.Path v n leaf} (p.height v)) ∧
    (∃ ks, Walker.dependency.walk p = .ok ks ∧
      (ks.Pairwise fun u v ↦ p.level u ≤ p.level v) ∧ p.roots <+: ks ∧
      ks.filter (fun v ↦ p.level v = 0) = p.roots ∧ p.roots.Pairwise (· < ·)) ∧
    ∃ ks, Walker.reverseDependency.walk p = .ok ks ∧
      (ks.Pairwise fun u v ↦ p.height u ≤ p.height v) ∧ p.leaves <+: ks ∧
      ks.filter (fun v ↦ p.height v = 0) = p.leaves ∧ p.leaves.Pairwise (· < ·) := by
  have hr := h.reversed
  have hracyclic : p.reversed.Acyclic := h.acyclic_reversed_iff.2 hacyclic
  refine ⟨fun v hv ↦ ⟨h.isGreatest_level hacyclic hv, h.isGreatest_height hacyclic hv⟩, ?_, ?_⟩
  · obtain ⟨ks, hks, -⟩ := h.exists_dependencyOrder hacyclic
    obtain ⟨hsorted, hprefix, hfilter⟩ := h.order_by_level (h.levels hacyclic) hks
    exact ⟨ks, hks, hsorted, hprefix, hfilter, (pairwise_keys p).filter _⟩
  · obtain ⟨ks, hks, -⟩ := hr.exists_dependencyOrder hracyclic
    obtain ⟨hsorted, hprefix, hfilter⟩ := hr.order_by_level (hr.levels hracyclic) hks
    rw [h.level_reversed] at hsorted hfilter
    exact ⟨ks, hks, hsorted, hprefix, hfilter, (pairwise_keys p).filter _⟩

/-- The tangle with its ring cut up. -/
def untangled : Plan :=
  (tangle.remove ⟨"walk", 0⟩).plan

/-- The first split feeds the union directly and through the second one, so the union is two levels
below it. In the reverse order what is left of the ring comes with the leaves, and the first split
comes last. -/
theorem dependency_orders_by_level_untangled :
    untangled.Linked ∧ untangled.Acyclic ∧ untangled.hasEdge ⟨"walk", 2⟩ ⟨"walk", 4⟩ ∧
      2 ≤ untangled.level ⟨"walk", 4⟩ ∧
      untangled.leaves = [⟨"walk", 1⟩, ⟨"walk", 4⟩, ⟨"walk", 5⟩] ∧
      [⟨"walk", 1⟩, ⟨"walk", 4⟩, ⟨"walk", 5⟩, ⟨"walk", 3⟩, ⟨"walk", 2⟩].Pairwise
        (fun u v ↦ untangled.height u ≤ untangled.height v) := by
  have h : untangled.Linked := (checkInvariants_eq_ok_iff.1 (by decide)).1
  have hacyclic : untangled.Acyclic := h.dependencyOrder_isOk_iff.1
    ⟨[⟨"walk", 1⟩, ⟨"walk", 2⟩, ⟨"walk", 3⟩, ⟨"walk", 4⟩, ⟨"walk", 5⟩], by decide +kernel⟩
  have hreverse : Walker.reverseDependency.walk untangled =
      .ok [⟨"walk", 1⟩, ⟨"walk", 4⟩, ⟨"walk", 5⟩, ⟨"walk", 3⟩, ⟨"walk", 2⟩] := by decide +kernel
  have hroot : (⟨"walk", 2⟩ : Key) ∈ untangled.roots := by decide
  have hpath : untangled.Path ⟨"walk", 2⟩ 2 ⟨"walk", 4⟩ :=
    .cons (v := ⟨"walk", 3⟩) (by decide) (.concat .nil (by decide))
  obtain ⟨hgreatest, -, ks, hks, hsorted, -⟩ := dependency_orders_by_level h hacyclic
  obtain rfl := Except.ok.inj (hks.symm.trans hreverse)
  obtain ⟨hlevel, -⟩ := hgreatest ⟨"walk", 4⟩ (by decide)
  exact ⟨h, hacyclic, by decide, hlevel.2 ⟨_, hroot, hpath⟩, by decide, hsorted⟩

end Plan

end Dataflow
