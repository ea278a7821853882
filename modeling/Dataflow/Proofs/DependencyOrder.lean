import Dataflow.Proofs.Cycles
import Dataflow.Proofs.Validation
import Dataflow.Walk.Dependency
import Mathlib.Data.List.Nodup
import Mathlib.Logic.Relation

/-!
# What comes out in dependency order

An ordering takes an operator from the queue, and then settles one dependency of each operator that
it feeds. `Release.Moment` goes through this at the finest grain, one counter at a time, and
`Release.Progress` is what holds at every moment: a counter is the number of dependencies that are
not settled, and exactly the operators without any have joined the queue, each once.

At the end nothing waits. Then an operator has been ordered exactly if all that feed it have been,
and so the operators that come out are the clear ones (`Progress.mem_order_iff`). The reverse order
is that of the plan with its edges turned round.
-/

namespace Dataflow

namespace Release

/-! ### Moments of an ordering -/

/-- A moment of the ordering along `next` that begins with `first`: how far it has got, and the
neighbours of the operator ordered last that are due to be settled. -/
inductive Moment (next : Adjacency) (first : Release) : Release → List Key → Prop
  | start : Moment next first first []
  | take {r : Release} {k : Key} {rest : List Key} (h : Moment next first r [])
    (hr : r.ready = k :: rest) :
    Moment next first { r with ready := rest, order := r.order ++ [k] }
      (Adjacency.neighbours next k)
  | settle {r : Release} {k : Key} {due : List Key} (h : Moment next first r (k :: due)) :
    Moment next first (r.settle k) due

variable {next : Adjacency} {first r : Release}

theorem Moment.foldl_settle {due : List Key} (h : Moment next first r due) :
    Moment next first (due.foldl Release.settle r) [] := by
  induction due generalizing r with
  | nil => exact h
  | cons k due ih => exact ih h.settle

/-- A step is an operator taken from the queue and all its neighbours settled. -/
theorem Moment.step (h : Moment next first r []) {s : Release} (hs : r.step next = some s) :
    Moment next first s [] := by
  rw [Release.step] at hs
  split at hs
  · cases hs
  next k rest hr => exact Option.some.inj hs ▸ (h.take hr).foldl_settle

/-- The end of an ordering is one of its moments. -/
theorem Moment.run (h : Moment next first r []) : Moment next first (r.run next) [] := by
  fun_induction Release.run next r with
  | case1 => exact h
  | case2 r s hs ih => exact ih (h.step hs)

theorem step_eq_none_iff : r.step next = none ↔ r.ready = [] := by
  rw [Release.step]
  cases r.ready <;> simp

/-- And nothing waits then. -/
theorem ready_run (r : Release) : (r.run next).ready = [] := by
  fun_induction Release.run next r with
  | case1 r hnone => exact step_eq_none_iff.1 hnone
  | case2 r s hs ih => exact ih

theorem settle_of_get? {k : Key} {n : Int} (hn : r.pending.get? k = some n) :
    r.settle k = { r with
      pending := r.pending.insert k (n - 1)
      ready := if n - 1 = 0 then r.ready ++ [k] else r.ready } := by
  rw [settle, hn]

/-! ### What holds at every moment -/

/-- **How far an ordering has got.** Every operator has a counter, and it counts the operators that
feed it and are not ordered, or are ordered but have not been settled with it. Those at which it is
zero have been queued, each once and none after an operator that it feeds. -/
structure Progress (p : Plan) (r : Release) (due : List Key) : Prop where
  pending_eq : ∀ k, r.pending.get? k = if p.contains k then
    some (((p.predecessors k).countP (· ∉ r.order) + due.count k : Nat) : Int) else none
  nodup : (r.order ++ r.ready).Nodup
  mem_iff : ∀ k, k ∈ r.order ++ r.ready ↔
    p.contains k ∧ k ∉ due ∧ ∀ j ∈ p.predecessors k, j ∈ r.order
  nodup_due : due.Nodup
  contains_due : ∀ k ∈ due, p.contains k
  sorted : r.order.Pairwise fun j k ↦ k ∉ p.predecessors j

variable {p : Plan}

/-- At the start the roots are queued. -/
theorem progress_start (h : p.Linked) : Progress p p.releaseForward [] where
  pending_eq k := by
    have hcount : (p.predecessors k).countP (· ∉ ([] : List Key)) = p.inDegree k :=
      List.countP_eq_length.2 fun _ _ ↦ decide_eq_true List.not_mem_nil
    show (p.ops.mapWithKey _).get? k = _
    rw [Table.get?_mapWithKey]
    show (p.operator? k).map _ = if (p.operator? k).isSome then _ else none
    cases p.operator? k with
    | none => rfl
    | some op =>
      show some (p.inDegree k : Int) = some _
      rw [← hcount]
      rfl
  nodup := (Plan.nodup_keys p).filter _
  mem_iff k := by
    show k ∈ p.roots ↔ _
    rw [h.mem_roots_iff, List.eq_nil_iff_forall_not_mem]
    refine and_congr_right fun _ ↦ ⟨fun hno ↦ ⟨List.not_mem_nil, fun j hj ↦ absurd hj (hno j)⟩, ?_⟩
    exact fun ⟨_, hall⟩ j hj ↦ absurd (hall j hj) List.not_mem_nil
  nodup_due := .nil
  contains_due _ hk := absurd hk List.not_mem_nil
  sorted := .nil

/-- To order one more operator is to count it no longer. -/
theorem countP_not_mem_concat {order : List Key} {k : Key} (hk : k ∉ order) (l : List Key) :
    l.countP (· ∉ order) = l.countP (· ∉ order ++ [k]) + l.count k := by
  induction l with
  | nil => rfl
  | cons x l ih =>
    rw [List.countP_cons, List.countP_cons, List.count_cons, ih]
    by_cases hx : x = k
    · subst hx
      simp [hk]
      omega
    · by_cases hmem : x ∈ order <;> simp [hx, hmem]
      omega

/-- The operator that is taken from the queue has to be settled with all that it feeds. -/
theorem Progress.take (h : p.Linked) (hp : Progress p r []) {k : Key} {rest : List Key}
    (hr : r.ready = k :: rest) :
    Progress p { r with ready := rest, order := r.order ++ [k] } (p.successors k) := by
  have hlist : (r.order ++ [k]) ++ rest = r.order ++ r.ready := by rw [hr, List.append_assoc]; rfl
  have hnodup : ((r.order ++ [k]) ++ rest).Nodup := hlist ▸ hp.nodup
  have hnot : k ∉ r.order := fun hk ↦
    (List.nodup_append.1 (List.nodup_append.1 hnodup).1).2.2 k hk k (List.mem_singleton_self k) rfl
  -- Nothing that was queued is fed by `k`, which had not been ordered.
  have hqueued : ∀ {j}, (∀ i ∈ p.predecessors j, i ∈ r.order) → k ∉ p.predecessors j :=
    fun hall hk ↦ hnot (hall k hk)
  constructor
  · intro j
    have hcount : (p.predecessors j).count k = (p.successors k).count j := by
      rw [(h.nodup_predecessors j).count, (h.nodup_successors k).count]
      simp only [h.mem_successors_iff]
    rw [← hcount, ← countP_not_mem_concat hnot]
    exact hp.pending_eq j
  · exact hnodup
  · intro j
    show j ∈ (r.order ++ [k]) ++ rest ↔ _
    rw [hlist, hp.mem_iff]
    refine and_congr_right fun _ ↦ ?_
    rw [h.mem_successors_iff]
    constructor
    · rintro ⟨-, hall⟩
      exact ⟨hqueued hall, fun i hi ↦ List.mem_append_left _ (hall i hi)⟩
    · rintro ⟨hk, hall⟩
      refine ⟨List.not_mem_nil, fun i hi ↦ ?_⟩
      exact (List.mem_append.1 (hall i hi)).resolve_right
        (List.mem_singleton.not.2 (ne_of_mem_of_not_mem hi hk))
  · exact h.nodup_successors k
  · exact fun j hj ↦ (h.contains_of_mem hj).2
  · refine List.pairwise_append.2 ⟨hp.sorted, List.pairwise_singleton .., fun j hj i hi ↦ ?_⟩
    obtain rfl := List.mem_singleton.1 hi
    exact hqueued ((hp.mem_iff j).1 (List.mem_append_left _ hj)).2.2

/-- Settling lowers the counter, which was not zero, and queues the operator if it is zero now. -/
theorem Progress.settle {k : Key} {due : List Key} (hp : Progress p r (k :: due)) :
    Progress p (r.settle k) due := by
  obtain ⟨hnot, hdue⟩ := List.nodup_cons.1 hp.nodup_due
  have hk : p.contains k := hp.contains_due k (List.mem_cons_self ..)
  set n := (p.predecessors k).countP (· ∉ r.order) with hn
  have hpending : r.pending.get? k = some ((n + 1 : Nat) : Int) := by
    rw [hp.pending_eq, if_pos hk, List.count_cons_self, List.count_eq_zero.2 hnot]
  have hall : n = 0 ↔ ∀ j ∈ p.predecessors k, j ∈ r.order := by
    rw [hn, List.countP_eq_zero]
    simp only [decide_eq_true_eq, Decidable.not_not]
  have hfresh : k ∉ r.order ++ r.ready := fun hmem ↦
    ((hp.mem_iff k).1 hmem).2.1 (List.mem_cons_self ..)
  have hsettle : r.settle k = { r with
      pending := r.pending.insert k n
      ready := if n = 0 then r.ready ++ [k] else r.ready } := by
    rw [settle_of_get? hpending, Int.natCast_add, Int.natCast_one, Int.add_sub_cancel]
    simp only [Int.natCast_eq_zero]
  rw [hsettle]
  constructor
  · intro j
    show (r.pending.insert k n).get? j = _
    rw [Table.get?_insert]
    by_cases hj : j = k
    · subst hj
      rw [if_pos rfl, if_pos hk, List.count_eq_zero.2 hnot]
      rfl
    · rw [if_neg hj, hp.pending_eq, List.count_cons_of_ne (Ne.symm hj)]
  · show (r.order ++ if n = 0 then r.ready ++ [k] else r.ready).Nodup
    split
    · rw [← List.append_assoc]
      exact List.nodup_append_comm.2 (hp.nodup.cons hfresh)
    · exact hp.nodup
  · intro j
    show j ∈ r.order ++ (if n = 0 then r.ready ++ [k] else r.ready) ↔ _
    have hmem : j ∈ r.order ++ (if n = 0 then r.ready ++ [k] else r.ready) ↔
        j ∈ r.order ++ r.ready ∨ n = 0 ∧ j = k := by
      split
      next h₀ => simp [h₀, or_assoc]
      next h₀ => simp [h₀]
    rw [hmem, hp.mem_iff, List.mem_cons, not_or]
    by_cases hj : j = k
    · subst hj
      tauto
    · tauto
  · exact hdue
  · exact fun j hj ↦ hp.contains_due j (.tail _ hj)
  · exact hp.sorted

/-- **At every moment.** By induction on what has happened since the start. -/
theorem Moment.progress (h : p.Linked) {due : List Key}
    (hr : Moment p.succs p.releaseForward r due) : Progress p r due := by
  induction hr with
  | start => exact progress_start h
  | take _ hready ih => exact ih.take h hready
  | settle _ ih => exact ih.settle

/-- No counter is below zero, and no operator has joined the queue twice: those that have left it
again stand in the order. -/
def Sound (r : Release) : Prop :=
  (∀ k n, r.pending.get? k = some n → 0 ≤ n) ∧ (r.order ++ r.ready).Nodup

theorem Progress.sound {due : List Key} (hp : Progress p r due) : r.Sound := by
  refine ⟨fun k n hn ↦ ?_, hp.nodup⟩
  rw [hp.pending_eq] at hn
  split at hn
  · exact Option.some.inj hn ▸ Int.natCast_nonneg _
  · cases hn

/-! ### The end -/

/-- What feeds an ordered operator stands before it. -/
theorem Progress.idxOf_lt (h : p.Linked) {due : List Key} (hp : Progress p r due) {j k : Key}
    (hk : k ∈ r.order) (hjk : k ∈ p.successors j) :
    j ∈ r.order ∧ r.order.idxOf j < r.order.idxOf k := by
  have hfeeds := (h.mem_successors_iff j k).1 hjk
  have hj : j ∈ r.order := ((hp.mem_iff k).1 (List.mem_append_left _ hk)).2.2 j hfeeds
  refine ⟨hj, ?_⟩
  rcases Nat.lt_trichotomy (r.order.idxOf j) (r.order.idxOf k) with hlt | heq | hgt
  · exact hlt
  · obtain rfl := (List.idxOf_inj hj).1 heq
    exact absurd hjk (h.not_mem_successors_self j)
  · have hsorted := List.pairwise_iff_getElem.1 hp.sorted _ _ (List.idxOf_lt_length_of_mem hk)
      (List.idxOf_lt_length_of_mem hj) hgt
    rw [List.getElem_idxOf, List.getElem_idxOf] at hsorted
    exact absurd hfeeds hsorted

/-- So does everything from which a path leads to it. -/
theorem Progress.idxOf_lt_of_pathExists (h : p.Linked) {due : List Key} (hp : Progress p r due)
    {j k : Key} (hk : k ∈ r.order) (hjk : p.pathExists j k) :
    j ∈ r.order ∧ r.order.idxOf j < r.order.idxOf k := by
  have hleads := Plan.pathExists_iff.1 hjk
  clear hjk
  induction hleads using Relation.TransGen.head_induction_on with
  | single hstep => exact hp.idxOf_lt h hk hstep
  | head hstep _ ih =>
    obtain ⟨hi, hlt⟩ := ih
    obtain ⟨hj, hlt'⟩ := hp.idxOf_lt h hi hstep
    exact ⟨hj, Nat.lt_trans hlt' hlt⟩

/-- **When nothing waits, the clear operators have been ordered.** On a cycle, and below one, no
operator can be the first to come out; a clear operator comes out after those that feed it. -/
theorem Progress.mem_order_iff (h : p.Linked) (hp : Progress p r []) (hready : r.ready = [])
    {k : Key} : k ∈ r.order ↔ k ∈ p.clearAbove := by
  have hmem : ∀ k, k ∈ r.order ↔ p.contains k ∧ ∀ j ∈ p.predecessors k, j ∈ r.order := fun k ↦ by
    have hiff := hp.mem_iff k
    rwa [hready, List.append_nil, and_iff_right List.not_mem_nil] at hiff
  constructor
  · intro hk
    refine h.mem_clearAbove_iff.2 ⟨((hmem k).1 hk).1, fun j hj hjk ↦ ?_⟩
    have hmemj := (hp.idxOf_lt_of_pathExists h hk hjk).1
    exact Nat.lt_irrefl _ (hp.idxOf_lt_of_pathExists h hmemj hj).2
  · intro hk
    refine h.clear_induction (motive := (· ∈ r.order)) (fun k hk ih ↦ ?_) hk
    exact (hmem k).2 ⟨(h.mem_clearAbove_iff.1 hk).1, ih⟩

end Release

namespace Plan

variable {p : Plan}

/-! ### The two orders -/

/-- What the ordering along successor edges has listed when it ends. -/
theorem Linked.order_run_perm (h : p.Linked) :
    (p.releaseForward.run p.succs).order.Perm p.clearAbove := by
  have hp := Release.Moment.start.run.progress h
  have hnodup := (List.nodup_append.1 hp.nodup).1
  refine (List.perm_ext_iff_of_nodup hnodup (nodup_clearAbove p)).2 fun k ↦ ?_
  exact hp.mem_order_iff h (Release.ready_run _)

theorem Linked.idxOf_run_lt (h : p.Linked) {u v : Key} (huv : p.hasEdge u v)
    (hv : v ∈ (p.releaseForward.run p.succs).order) :
    (p.releaseForward.run p.succs).order.idxOf u <
      (p.releaseForward.run p.succs).order.idxOf v :=
  (Release.Moment.start.run.progress h |>.idxOf_lt h hv (hasEdge_iff.1 huv)).2

/-- **Without a cycle everything is ordered.** -/
theorem Linked.exists_dependencyOrder (h : p.Linked) (hacyclic : p.Acyclic) :
    ∃ ks, p.dependencyOrder = .ok ks ∧ ks.Perm p.keys ∧
      ∀ u v, p.hasEdge u v → ks.idxOf u < ks.idxOf v := by
  have hperm := h.order_run_perm
  rw [h.acyclic_iff_clearAbove.1 hacyclic] at hperm
  refine ⟨_, if_pos (length_eq_size_of_perm hperm), hperm, fun u v huv ↦ h.idxOf_run_lt huv ?_⟩
  exact hperm.mem_iff.2 (mem_keys_iff.2 (h.contains_of_mem (hasEdge_iff.1 huv)).2)

/-- **With a cycle it is counted what could be ordered.** -/
theorem Linked.dependencyOrder_eq_error (h : p.Linked) (hcyclic : ¬p.Acyclic) :
    p.dependencyOrder = .error (.structural (.cycle p.clearAbove.length p.size)) := by
  have hlength := h.order_run_perm.length_eq
  rw [h.acyclic_iff_length, ← hlength] at hcyclic
  rw [dependencyOrder, complete, if_neg hcyclic, hlength]

theorem Linked.dependencyOrder_isOk_iff (h : p.Linked) :
    (∃ ks, p.dependencyOrder = .ok ks) ↔ p.Acyclic := by
  refine ⟨fun ⟨ks, hks⟩ ↦ ?_, fun hacyclic ↦ ?_⟩
  · by_contra hcyclic
    rw [h.dependencyOrder_eq_error hcyclic] at hks
    cases hks
  · obtain ⟨ks, hks, -⟩ := h.exists_dependencyOrder hacyclic
    exact ⟨ks, hks⟩

/-- An order that comes out has every operator once and every edge leads forward in it. -/
theorem Linked.perm_and_idxOf_lt (h : p.Linked) {ks : List Key} (hks : p.dependencyOrder = .ok ks) :
    ks.Perm p.keys ∧ ∀ u v, p.hasEdge u v → ks.idxOf u < ks.idxOf v := by
  obtain ⟨ks', hks', hspec⟩ := h.exists_dependencyOrder (h.dependencyOrder_isOk_iff.1 ⟨ks, hks⟩)
  obtain rfl := Except.ok.inj (hks.symm.trans hks')
  exact hspec

theorem Linked.hasEdge_reversed_iff (h : p.Linked) {u v : Key} :
    p.reversed.hasEdge v u ↔ p.hasEdge u v := by
  rw [hasEdge_iff, hasEdge_iff]
  exact (h.mem_successors_iff u v).symm

/-- **Both orders are exact.** In whatever plan whose edges fit together: an order comes out exactly
if there is no cycle; then it has every operator once, and each edge leads forward in it, or
backward in the reverse order; with a cycle, the complaint gives the number of operators that are
neither on a cycle nor below one, or above one for the reverse order. All the while no counter falls
below zero and no operator joins the queue a second time. -/
theorem dependency_orders_exact (h : p.Linked) :
    (((∃ ks, Walker.dependency.walk p = .ok ks) ↔ p.Acyclic) ∧
      (∀ ks, Walker.dependency.walk p = .ok ks →
        ks.Perm p.keys ∧ ∀ u v, p.hasEdge u v → ks.idxOf u < ks.idxOf v) ∧
      (¬p.Acyclic →
        Walker.dependency.walk p = .error (.structural (.cycle p.clearAbove.length p.size))) ∧
      ∀ r due, Release.Moment p.succs p.releaseForward r due → r.Sound) ∧
    ((∃ ks, Walker.reverseDependency.walk p = .ok ks) ↔ p.Acyclic) ∧
      (∀ ks, Walker.reverseDependency.walk p = .ok ks →
        ks.Perm p.keys ∧ ∀ u v, p.hasEdge u v → ks.idxOf v < ks.idxOf u) ∧
      (¬p.Acyclic →
        Walker.reverseDependency.walk p =
          .error (.structural (.cycle p.clearBelow.length p.size))) ∧
      ∀ r due, Release.Moment p.preds p.releaseBackward r due → r.Sound := by
  have hr := h.reversed
  refine ⟨⟨h.dependencyOrder_isOk_iff, fun _ ↦ h.perm_and_idxOf_lt, h.dependencyOrder_eq_error,
    fun _ _ hm ↦ (hm.progress h).sound⟩, ?_, fun ks hks ↦ ?_, fun hcyclic ↦ ?_,
    fun _ _ hm ↦ (Release.Moment.progress hr hm).sound⟩
  · exact hr.dependencyOrder_isOk_iff.trans h.acyclic_reversed_iff
  · obtain ⟨hperm, hlt⟩ := hr.perm_and_idxOf_lt hks
    exact ⟨hperm, fun u v huv ↦ hlt v u (h.hasEdge_reversed_iff.2 huv)⟩
  · have hcyclic' : ¬p.reversed.Acyclic := mt h.acyclic_reversed_iff.1 hcyclic
    rw [← h.clearAbove_reversed]
    exact hr.dependencyOrder_eq_error hcyclic'

/-- A source feeds a union, the union a split, and the split feeds a sink and the union again. -/
def feedback : Plan :=
  let read : Operator := ⟨⟨"loop", 0⟩, "read", .source, false, false⟩
  let meet : Operator := ⟨⟨"loop", 1⟩, "meet", .union, true, false⟩
  let part : Operator := ⟨⟨"loop", 2⟩, "part", .split, false, true⟩
  let save : Operator := ⟨⟨"loop", 3⟩, "save", .sink, false, false⟩
  let bare := (((((∅ : Plan).add read).plan.add meet).plan.add part).plan.add save).plan
  ((((bare.connect read.key meet.key).plan.connect meet.key part.key).plan.connect
    part.key save.key).plan.connect part.key meet.key).plan

/-- With feedback, only the source comes out before its successors and only the sink before its
predecessors. The fork can be ordered both ways. -/
theorem dependency_orders_exact_feedback :
    feedback.Linked ∧
      Walker.dependency.walk feedback = .error (.structural (.cycle 1 4)) ∧
      Walker.reverseDependency.walk feedback = .error (.structural (.cycle 1 4)) ∧
      fork.Linked ∧ (∃ ks, Walker.dependency.walk fork = .ok ks) ∧
      ∃ ks, Walker.reverseDependency.walk fork = .ok ks := by
  have h : feedback.Linked := (checkInvariants_eq_ok_iff.1 (by decide)).1
  have h' : fork.Linked := (checkInvariants_eq_ok_iff.1 (by decide)).1
  have hcyclic : ¬feedback.Acyclic := fun hacyclic ↦ hacyclic ⟨"loop", 1⟩ (by cbv)
  have hacyclic : fork.Acyclic := h'.acyclic_iff_length.2 (by cbv)
  have habove : feedback.clearAbove.length = 1 := by cbv
  have hbelow : feedback.clearBelow.length = 1 := by cbv
  obtain ⟨⟨-, -, hforward, -⟩, -, -, hbackward, -⟩ := dependency_orders_exact h
  refine ⟨h, ?_, ?_, h', ?_, ?_⟩
  · exact (hforward hcyclic).trans (by rw [habove]; rfl)
  · exact (hbackward hcyclic).trans (by rw [hbelow]; rfl)
  · exact (dependency_orders_exact h').1.1.2 hacyclic
  · exact (dependency_orders_exact h').2.1.2 hacyclic

end Plan

end Dataflow
