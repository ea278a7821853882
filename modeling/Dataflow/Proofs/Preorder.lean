import Dataflow.Proofs.Coverage

/-!
# Depth-first order by recursion

`Plan.explore` works off a stack, on which an operator may stand several times. `Plan.preorder` says
what it comes to, by recursion over the plan and without a stack: an operator that has not been
visited is listed, then what has not been visited below it, and only then whatever is to the right.

That the two agree (`explore_eq_preorder`) rests on two facts about the recursion. A list may be cut
in two if the second part is told what the first has visited (`preorder_append`); this is what the
lower part of a stack waits for. And it makes no difference whether an operator that has been
visited is left out of the list or skipped when its turn comes (`preorder_filter`).
-/

namespace Dataflow

theorem Adjacency.unread_append_le (a : Adjacency) (l seen : List Key) :
    unread a (l ++ seen) ≤ unread a seen := by
  induction l with
  | nil => exact Nat.le_refl _
  | cons k l ih => exact (unread_cons_le a k _).trans ih

namespace Plan

variable {p : Plan}

/-! ### The recursion -/

/-- Visits the operators of a list in turn, where those in `seen` have been visited before. A visit
lists the operator and then visits its successors, in their order. -/
def preorder (p : Plan) (seen : List Key) : List Key → List Key
  | [] => []
  | k :: ks =>
    if _hk : k ∈ seen then preorder p seen ks
    else
      let tree := k :: preorder p (k :: seen) (p.successors k)
      tree ++ preorder p (tree ++ seen) ks
termination_by ks => (Adjacency.unread p.succs seen, ks.length)
decreasing_by
  · exact Prod.Lex.right _ (Nat.lt_succ_self _)
  · rcases Adjacency.neighbours_eq_nil_or p.succs k with hnil | hsome
    · -- No entry is read, but then there are no successors to go on with.
      rw [show p.successors k = [] from hnil]
      rcases Nat.lt_or_eq_of_le (Adjacency.unread_cons_le p.succs k seen) with h | h
      · exact Prod.Lex.left _ _ h
      · exact h ▸ Prod.Lex.right _ (Nat.zero_lt_succ _)
    · exact Prod.Lex.left _ _ (Adjacency.unread_cons_lt _hk hsome)
  · rcases Nat.lt_or_eq_of_le (Adjacency.unread_append_le p.succs tree seen) with h | h
    · exact Prod.Lex.left _ _ h
    · rw [h]
      exact Prod.Lex.right _ (Nat.lt_succ_self _)

/-- **The textbook order.** Trees start at the operators that nothing feeds, and afterwards at those
that are left, in key order both times. -/
def recursiveOrder (p : Plan) : List Key :=
  let fromRoots := p.preorder [] (p.keys.filter fun k ↦ p.predecessors k = [])
  fromRoots ++ p.preorder fromRoots p.keys

@[simp]
theorem preorder_nil (seen : List Key) : p.preorder seen [] = [] := by
  rw [preorder]

theorem preorder_of_mem {k : Key} {seen : List Key} (ks : List Key) (hk : k ∈ seen) :
    p.preorder seen (k :: ks) = p.preorder seen ks := by
  rw [preorder, dif_pos hk]

theorem preorder_of_not_mem {k : Key} {seen : List Key} (ks : List Key) (hk : k ∉ seen) :
    p.preorder seen (k :: ks) =
      (k :: p.preorder (k :: seen) (p.successors k)) ++
        p.preorder ((k :: p.preorder (k :: seen) (p.successors k)) ++ seen) ks := by
  rw [preorder, dif_neg hk]

/-! ### What the recursion depends on -/

/-- Only which operators have been visited matters, not in what order. -/
theorem preorder_congr {s t ks : List Key} (h : ∀ k, k ∈ s ↔ k ∈ t) :
    p.preorder s ks = p.preorder t ks := by
  fun_induction preorder p s ks generalizing t with
  | case1 s => exact (preorder_nil t).symm
  | case2 s k ks hk ih => rw [preorder_of_mem ks ((h k).1 hk), ih h]
  | case3 s k ks hk tree ih =>
    rename_i ih'
    have hbelow : p.preorder (k :: s) (p.successors k) = p.preorder (k :: t) (p.successors k) :=
      ih fun j ↦ by rw [List.mem_cons, List.mem_cons, h j]
    have hright : p.preorder (tree ++ s) ks = p.preorder (tree ++ t) ks :=
      ih' fun j ↦ by rw [List.mem_append, List.mem_append, h j]
    rw [preorder_of_not_mem ks (mt (h k).2 hk), ← hbelow]
    exact congrArg _ hright

/-- Where everything has been visited, there is nothing to list. -/
theorem preorder_eq_nil {seen todo : List Key} (h : todo ⊆ seen) : p.preorder seen todo = [] := by
  induction todo with
  | nil => exact preorder_nil seen
  | cons k todo ih =>
    obtain ⟨hk, htodo⟩ := List.cons_subset.1 h
    rw [preorder_of_mem todo hk, ih htodo]

/-- **A list may be cut in two.** -/
theorem preorder_append (s ks js : List Key) :
    p.preorder s (ks ++ js) = p.preorder s ks ++ p.preorder (p.preorder s ks ++ s) js := by
  induction ks generalizing s with
  | nil => rw [preorder_nil, List.nil_append, List.nil_append, List.nil_append]
  | cons k ks ih =>
    rw [List.cons_append]
    by_cases hk : k ∈ s
    · rw [preorder_of_mem _ hk, preorder_of_mem _ hk, ih]
    · rw [preorder_of_not_mem _ hk, preorder_of_not_mem _ hk, ih, ← List.append_assoc]
      congr 1
      exact preorder_congr fun j ↦ by simp only [List.mem_append, or_comm, or_assoc]

/-- **It makes no difference whether visited operators are left out or skipped.** -/
theorem preorder_filter {s t : List Key} (h : s ⊆ t) (ks : List Key) :
    p.preorder t (ks.filter (· ∉ s)) = p.preorder t ks := by
  induction ks generalizing t with
  | nil => rfl
  | cons k ks ih =>
    by_cases hk : k ∈ t
    · rw [preorder_of_mem ks hk, ← ih h, List.filter_cons]
      split
      · exact preorder_of_mem _ hk
      · rfl
    · have hks : k ∉ s := fun hks ↦ hk (h hks)
      rw [List.filter_cons, if_pos (decide_eq_true hks), preorder_of_not_mem _ hk,
        preorder_of_not_mem _ hk, ih (List.Subset.trans h (List.subset_append_right ..))]

/-! ### Stack and recursion -/

/-- **The stack does what the recursion does.** By induction along the exploration; visited
operators stand there with the latest first. -/
theorem explore_eq_preorder (stack visited : List Key) :
    explore p.succs stack visited = (p.preorder visited stack).reverse ++ visited := by
  induction stack, visited using explore_induction p.succs with
  | nil visited => rw [explore_nil, preorder_nil]; rfl
  | skip k rest visited hk ih => rw [explore_of_mem rest hk, preorder_of_mem rest hk, ih]
  | visit k rest visited hk ih =>
    -- What is pushed is explored before the rest, and leaves out only what would be skipped.
    have hpushed : p.preorder (k :: visited) ((p.successors k).filter (· ∉ k :: visited) ++ rest) =
        p.preorder (k :: visited) (p.successors k) ++
          p.preorder (p.preorder (k :: visited) (p.successors k) ++ k :: visited) rest := by
      rw [preorder_append, preorder_filter (List.Subset.refl _)]
    have hcongr : p.preorder (p.preorder (k :: visited) (p.successors k) ++ k :: visited) rest =
        p.preorder ((k :: p.preorder (k :: visited) (p.successors k)) ++ visited) rest :=
      preorder_congr fun j ↦ by simp only [List.mem_append, List.mem_cons, or_left_comm, or_assoc]
    rw [explore_of_not_mem rest hk, ih, preorder_of_not_mem rest hk, ← hcongr]
    show (p.preorder (k :: visited) ((p.successors k).filter _ ++ rest)).reverse ++ _ = _
    rw [hpushed, List.cons_append, List.reverse_cons, List.append_assoc]
    rfl

theorem depthFirstOrder_eq_preorder (p : Plan) : p.depthFirstOrder = p.preorder [] p.starts := by
  rw [depthFirstOrder_eq, explore_eq_preorder, List.append_nil, List.reverse_reverse]

theorem Linked.depthFirstOrder_eq_recursiveOrder (h : p.Linked) :
    p.depthFirstOrder = p.recursiveOrder := by
  rw [depthFirstOrder_eq_preorder, starts, preorder_append, List.append_nil, h.roots_eq]
  rfl

/-- **Depth-first walks are the textbook ones.** On every plan whose edges are in order, whether
there are cycles or not, a walk succeeds, it lists every operator once and no other, and it lists
them in the order of the recursion: from each root in key order, and then from each operator that is
left. -/
theorem depth_first_is_preorder (h : p.Linked) :
    ∃ order, Walker.depthFirst.walk p = .ok order ∧ order.Nodup ∧
      (∀ k, k ∈ order ↔ p.contains k) ∧ order = p.recursiveOrder :=
  ⟨p.depthFirstOrder, rfl, nodup_depthFirstOrder p, fun _ ↦ h.mem_depthFirstOrder_iff,
    h.depthFirstOrder_eq_recursiveOrder⟩

/-- Two unions that feed each other, and a split that feeds a second split and a union, where the
second split feeds the union first and then a sink. -/
def tangle : Plan :=
  let here : Operator := ⟨⟨"walk", 0⟩, "here", .union, true, false⟩
  let there : Operator := ⟨⟨"walk", 1⟩, "there", .union, true, false⟩
  let top : Operator := ⟨⟨"walk", 2⟩, "top", .split, false, true⟩
  let side : Operator := ⟨⟨"walk", 3⟩, "side", .split, false, true⟩
  let meet : Operator := ⟨⟨"walk", 4⟩, "meet", .union, true, false⟩
  let last : Operator := ⟨⟨"walk", 5⟩, "last", .sink, false, false⟩
  let some := ((((∅ : Plan).add here).plan.add there).plan.add top).plan
  let bare := (((some.add side).plan.add meet).plan.add last).plan
  let ring := ((bare.connect here.key there.key).plan.connect there.key here.key).plan
  let fan := ((ring.connect top.key side.key).plan.connect top.key meet.key).plan
  ((fan.connect side.key meet.key).plan.connect side.key last.key).plan

/-- In the tangle, the shared union comes below the second split and before the sink, although it
was put on the stack earlier; the ring, which has no root, comes last. -/
theorem depth_first_is_preorder_tangle :
    tangle.Linked ∧ Walker.depthFirst.walk tangle =
      .ok [⟨"walk", 2⟩, ⟨"walk", 3⟩, ⟨"walk", 4⟩, ⟨"walk", 5⟩, ⟨"walk", 0⟩, ⟨"walk", 1⟩] := by
  have h : tangle.Linked := (checkInvariants_eq_ok_iff.1 (by decide)).1
  obtain ⟨order, horder, -, -, heq⟩ := depth_first_is_preorder h
  have hrec : tangle.recursiveOrder =
      [⟨"walk", 2⟩, ⟨"walk", 3⟩, ⟨"walk", 4⟩, ⟨"walk", 5⟩, ⟨"walk", 0⟩, ⟨"walk", 1⟩] := by cbv
  exact ⟨h, by rw [horder, heq, hrec]⟩

end Plan

end Dataflow
