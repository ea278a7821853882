import Dataflow.Proofs.OrderChecks
import Dataflow.Proofs.Preorder

/-!
# What the check of a depth-first order accepts

A depth-first search is a recursion (`Plan.preorder`). Which one it is depends on three choices: in
what order it turns to the roots, in what order it turns afterwards to whatever is left, and in what
order it takes the successors of each operator. `Plan.IsSearchOrder` says of a list that some choice
leads to it.

`Plan.verifyDepthFirst` knows nothing of the choices. It keeps the operators that are being visited
on a stack, and when another key comes it drops those from the top that have nothing more to offer.
What ties the two together is the `agenda`: what is on the stack, read as the list of all successors
that it still owes, and then the starting points. A recursion lists what comes first on the agenda
and has not been visited (`preorder_eq_cons_iff`), and putting it on the stack puts its successors
in front. So both inclusions go by induction on the order, with the agenda as the invariant.

For what is accepted the choices can be read off the order itself: each of the lists is taken in the
order in which its members are listed there (`following`).
-/

namespace Dataflow

/-- The members of a list, in the order of a longer one. -/
theorem filter_mem_perm {α : Type} [DecidableEq α] {order l : List α} (horder : order.Nodup)
    (hl : l.Nodup) (hsub : l ⊆ order) : (order.filter (· ∈ l)).Perm l := by
  refine (List.perm_ext_iff_of_nodup (horder.filter _) hl).2 fun a ↦ ?_
  rw [List.mem_filter, decide_eq_true_eq]
  exact and_iff_right_of_imp fun ha ↦ hsub ha

namespace Plan

variable {p q : Plan} {k : Key} {seen stack starts order rest : List Key}

/-! ### What a recursion turns to next -/

theorem preorder_append_of_subset {done : List Key} (h : done ⊆ seen) (todo : List Key) :
    p.preorder seen (done ++ todo) = p.preorder seen todo := by
  rw [preorder_append, preorder_eq_nil h, List.nil_append, List.nil_append]

/-- **First come, first listed.** What comes first and has not been visited is listed; then the
recursion is where it would be if the successors had been put in front. -/
theorem preorder_of_find?_eq_some {todo : List Key} (h : todo.find? (· ∉ seen) = some k) :
    p.preorder seen todo = k :: p.preorder (k :: seen) (p.successors k ++ todo) := by
  obtain ⟨hk, before, after, rfl, hbefore⟩ := List.find?_eq_some_iff_append.1 h
  have hk : k ∉ seen := of_decide_eq_true hk
  have hbefore : before ⊆ seen := fun j hj ↦ by simpa using hbefore j hj
  -- Below `k` nothing before it is listed, nor is `k` itself.
  have hdone : ∀ t, k :: seen ⊆ t → p.preorder t (before ++ k :: after) = p.preorder t after := by
    intro t ht
    obtain ⟨hkt, hseen⟩ := List.cons_subset.1 ht
    rw [preorder_append_of_subset (List.Subset.trans hbefore hseen), preorder_of_mem after hkt]
  rw [preorder_append_of_subset hbefore, preorder_of_not_mem after hk, preorder_append,
    hdone _ (List.subset_append_right ..), List.cons_append]
  congr 2
  exact preorder_congr fun j ↦ by simp only [List.mem_append, List.mem_cons, or_left_comm, or_assoc]

theorem preorder_eq_cons_iff {todo : List Key} :
    p.preorder seen todo = k :: rest ↔ todo.find? (· ∉ seen) = some k ∧
      rest = p.preorder (k :: seen) (p.successors k ++ todo) := by
  constructor
  · intro h
    rcases hfind : todo.find? (· ∉ seen) with - | j
    · cases (preorder_eq_nil (find?_not_mem_eq_none_iff.1 hfind)).symm.trans h
    · obtain ⟨rfl, hrest⟩ := List.cons.inj ((preorder_of_find?_eq_some hfind).symm.trans h)
      exact ⟨rfl, hrest.symm⟩
  · rintro ⟨hfind, rfl⟩
    exact preorder_of_find?_eq_some hfind

/-! ### Stack and agenda -/

/-- What is to be looked at while the operators of `stack` are being visited: all their successors,
those of the deepest first, and then the places where trees start. -/
def agenda (q : Plan) (stack starts : List Key) : List Key :=
  stack.flatMap q.successors ++ starts

@[simp]
theorem agenda_nil (q : Plan) (starts : List Key) : q.agenda [] starts = starts :=
  rfl

theorem agenda_cons (q : Plan) (k : Key) (stack starts : List Key) :
    q.agenda (k :: stack) starts = q.successors k ++ q.agenda stack starts := by
  rw [agenda, List.flatMap_cons, List.append_assoc, ← agenda]

/-- The same edges, but with the successors of each operator in an order of its own. -/
def Rearranges (q p : Plan) : Prop :=
  ∀ k, (q.successors k).Perm (p.successors k)

theorem isOpen_iff : p.isOpen seen k ↔ ∃ j ∈ p.successors k, j ∉ seen := by
  simp [isOpen]

theorem Rearranges.isOpen_iff (hq : q.Rearranges p) :
    p.isOpen seen k ↔ ∃ j ∈ q.successors k, j ∉ seen := by
  simp only [Plan.isOpen_iff, (hq k).mem_iff]

/-- What the check drops from its stack has nothing on the agenda but visited operators. -/
theorem Rearranges.preorder_agenda_dropWhile (hq : q.Rearranges p) (stack starts : List Key) :
    q.preorder seen (q.agenda (stack.dropWhile fun t ↦ !p.isOpen seen t) starts) =
      q.preorder seen (q.agenda stack starts) := by
  induction stack with
  | nil => rfl
  | cons t stack ih =>
    by_cases ht : p.isOpen seen t
    · rw [List.dropWhile_cons_of_neg (by simpa using ht)]
    · have hdone : q.successors t ⊆ seen := fun j hj ↦ by
        by_contra hseen
        exact ht (hq.isOpen_iff.2 ⟨j, hj, hseen⟩)
      rw [List.dropWhile_cons_of_pos (by simpa using ht), ih, agenda_cons,
        preorder_append_of_subset hdone]

theorem verifyPreorder_cons_eq_ok_iff : p.verifyPreorder seen stack (k :: rest) = .ok () ↔
    p.verifyNext seen (stack.dropWhile fun t ↦ !p.isOpen seen t) k = .ok () ∧
      p.verifyPreorder (k :: seen) (k :: stack.dropWhile fun t ↦ !p.isOpen seen t) rest = .ok () :=
  Check.unit_bind_eq_ok_iff

/-! ### What may come next -/

theorem verifyNext_cons_eq_ok_iff {t : Key} :
    p.verifyNext seen (t :: stack) k = .ok () ↔ k ∈ p.successors t := by
  rw [verifyNext]
  split <;> simp_all

/-- With nothing on the stack a tree starts, and not below a root unless all roots are done. -/
theorem Linked.verifyNext_nil_eq_ok_iff (h : p.Linked) (hk : p.contains k) :
    p.verifyNext seen [] k = .ok () ↔ k ∈ p.roots ∨ ∀ r ∈ p.roots, r ∈ seen := by
  have hroot : k ∈ p.roots ↔ p.predecessors k = [] := h.mem_roots_iff.trans (and_iff_right hk)
  rw [verifyNext, hroot, or_iff_not_imp_left]
  simp

/-- Of two lists one after the other, the second has a say only once the first is done. -/
theorem find?_append_eq_some {l m : List Key} (h : (l ++ m).find? (· ∉ seen) = some k) :
    k ∈ l ∨ l ⊆ seen ∧ k ∈ m := by
  rw [List.find?_append, Option.or_eq_some_iff] at h
  rcases h with hl | ⟨hl, hm⟩
  · exact .inl (List.mem_of_find?_eq_some hl)
  · exact .inr ⟨find?_not_mem_eq_none_iff.1 hl, List.mem_of_find?_eq_some hm⟩

/-! ### Searches are accepted -/

/-- What is next on the agenda may come next, where the deepest operator has something to offer. -/
theorem Linked.verifyNext_of_find? (h : p.Linked) (hq : q.Rearranges p) {rs ks : List Key}
    (hrs : rs.Perm p.roots) (hops : ∀ j ∈ rs ++ ks, p.contains j)
    (hopen : ∀ t ∈ stack.head?, p.isOpen seen t)
    (hfind : (q.agenda stack (rs ++ ks)).find? (· ∉ seen) = some k) :
    p.verifyNext seen stack k = .ok () := by
  cases stack with
  | nil =>
    rw [agenda_nil] at hfind
    rw [h.verifyNext_nil_eq_ok_iff (hops k (List.mem_of_find?_eq_some hfind))]
    rcases find?_append_eq_some hfind with hk | ⟨hall, -⟩
    · exact .inl (hrs.mem_iff.1 hk)
    · exact .inr fun r hr ↦ hall (hrs.mem_iff.2 hr)
  | cons t stack =>
    rw [verifyNext_cons_eq_ok_iff]
    rw [agenda_cons] at hfind
    rcases find?_append_eq_some hfind with hk | ⟨hall, -⟩
    · exact (hq t).mem_iff.1 hk
    · obtain ⟨j, hj, hseen⟩ := hq.isOpen_iff.1 (hopen t rfl)
      exact absurd (hall hj) hseen

/-- **What a recursion lists is accepted**, when the stack owes what the recursion was given. -/
theorem Linked.verifyPreorder_preorder (h : p.Linked) (hq : q.Rearranges p) {rs ks : List Key}
    (hrs : rs.Perm p.roots) (hops : ∀ j ∈ rs ++ ks, p.contains j)
    (hrest : rest = q.preorder seen (q.agenda stack (rs ++ ks))) :
    p.verifyPreorder seen stack rest = .ok () := by
  induction rest generalizing seen stack with
  | nil => rfl
  | cons k rest ih =>
    rw [← hq.preorder_agenda_dropWhile] at hrest
    obtain ⟨hfind, hrest⟩ := preorder_eq_cons_iff.1 hrest.symm
    rw [← agenda_cons] at hrest
    refine verifyPreorder_cons_eq_ok_iff.2 ⟨h.verifyNext_of_find? hq hrs hops ?_ hfind, ih hrest⟩
    intro t ht
    have hhead := List.head?_dropWhile_not (fun t ↦ !p.isOpen seen t) stack
    rw [Option.mem_def.1 ht] at hhead
    simpa using hhead

/-! ### What is accepted is a search -/

/-- The plan with the successors of each operator in the order in which they are listed. -/
def following (p : Plan) (order : List Key) : Plan :=
  { p with succs := Adjacency.updateAll p.succs p.keys fun l ↦ order.filter (· ∈ l) }

theorem Linked.successors_following (h : p.Linked) (order : List Key) (k : Key) :
    (p.following order).successors k = order.filter (· ∈ p.successors k) := by
  refine Adjacency.neighbours_updateAll_of_fixed p.succs (nodup_keys p) (fun j hj ↦ ?_) k
  -- What is not in the plan feeds nothing.
  have hnil : Adjacency.neighbours p.succs j = [] := h.successors_eq_nil (mt mem_keys_iff.2 hj)
  simp [hnil]

theorem Linked.following_rearranges (h : p.Linked) (hperm : order.Perm p.keys) :
    (p.following order).Rearranges p := by
  intro k
  rw [h.successors_following]
  refine filter_mem_perm (nodup_of_perm hperm) (h.nodup_successors k) fun j hj ↦ ?_
  exact hperm.mem_iff.2 (mem_keys_iff.2 (h.contains_of_mem hj).2)

/-- If the order has been followed up to `k`, then `k` comes first wherever it occurs. -/
theorem find?_filter_eq_some {l : List Key} {P : Key → Bool} (hl : l ⊆ seen) (hk : k ∉ seen)
    (hP : P k) : ((l ++ k :: rest).filter P).find? (· ∉ seen) = some k := by
  have hnone : (l.filter P).find? (· ∉ seen) = none :=
    find?_not_mem_eq_none_iff.2 fun j hj ↦ hl (List.mem_of_mem_filter hj)
  rw [List.filter_append, List.find?_append, hnone, Option.none_or, List.filter_cons_of_pos hP]
  exact List.find?_cons_of_pos (decide_eq_true hk)

/-- What may come next is next on the agenda, where all lists follow the order. -/
theorem Linked.find?_of_verifyNext (h : p.Linked) {l : List Key} (hl : l ⊆ seen) (hk : k ∉ seen)
    (horder : order = l ++ k :: rest) (hops : p.contains k)
    (hnext : p.verifyNext seen stack k = .ok ()) :
    ((p.following order).agenda stack (order.filter (· ∈ p.roots) ++ order)).find? (· ∉ seen) =
      some k := by
  cases stack with
  | nil =>
    rw [agenda_nil, List.find?_append]
    by_cases hroot : k ∈ p.roots
    · rw [horder, find?_filter_eq_some hl hk (decide_eq_true hroot), Option.some_or]
    · have hall := ((h.verifyNext_nil_eq_ok_iff hops).1 hnext).resolve_left hroot
      have hnone : (order.filter (· ∈ p.roots)).find? (· ∉ seen) = none := by
        refine find?_not_mem_eq_none_iff.2 fun j hj ↦ ?_
        exact hall j (of_decide_eq_true (List.mem_filter.1 hj).2)
      have hfirst : (order.filter fun _ ↦ true).find? (· ∉ seen) = some k := by
        rw [horder]
        exact find?_filter_eq_some hl hk rfl
      rw [List.filter_true] at hfirst
      rw [hnone, Option.none_or, hfirst]
  | cons t stack =>
    have hkt : k ∈ p.successors t := verifyNext_cons_eq_ok_iff.1 hnext
    rw [agenda_cons, List.find?_append, h.successors_following, horder,
      find?_filter_eq_some hl hk (decide_eq_true hkt), Option.some_or]

/-- **What is accepted is what a recursion lists**, if it takes everything in the order that is
being checked. By induction on what is left of that order. -/
theorem Linked.eq_preorder_of_verifyPreorder (h : p.Linked) (hperm : order.Perm p.keys)
    {l : List Key} (horder : order = l ++ rest) (hseen : ∀ j, j ∈ seen ↔ j ∈ l)
    (hok : p.verifyPreorder seen stack rest = .ok ()) :
    rest = (p.following order).preorder seen
      ((p.following order).agenda stack (order.filter (· ∈ p.roots) ++ order)) := by
  induction rest generalizing l seen stack with
  | nil =>
    -- Everything is listed, so everything has been visited.
    refine (preorder_eq_nil fun j hj ↦ (hseen j).2 ?_).symm
    rw [List.append_nil] at horder
    simp only [agenda, List.mem_append, List.mem_flatMap, h.successors_following,
      List.mem_filter] at hj
    grind
  | cons k rest ih =>
    obtain ⟨hnext, hrest⟩ := verifyPreorder_cons_eq_ok_iff.1 hok
    have hnodup : (l ++ k :: rest).Nodup := horder ▸ nodup_of_perm hperm
    have hk : k ∉ seen := fun hk ↦
      (List.nodup_append.1 hnodup).2.2 k ((hseen k).1 hk) k (List.mem_cons_self ..) rfl
    have hops : p.contains k := mem_keys_iff.1 (hperm.mem_iff.1 (by simp [horder]))
    have hfind := h.find?_of_verifyNext (fun j ↦ (hseen j).2) hk horder hops hnext
    rw [← (h.following_rearranges hperm).preorder_agenda_dropWhile, preorder_of_find?_eq_some hfind,
      ← agenda_cons, ← ih (l := l ++ [k]) (by simp [horder]) (by simp [hseen, or_comm]) hrest]

/-! ### Search orders -/

/-- The order of some depth-first search: trees start at the roots and then at whatever is left,
and below an operator at its successors, each time in an order of choice. What has been visited is
skipped. -/
def IsSearchOrder (p : Plan) (order : List Key) : Prop :=
  ∃ (q : Plan) (rs ks : List Key), q.Rearranges p ∧ rs.Perm p.roots ∧ ks.Perm p.keys ∧
    order = q.preorder [] (rs ++ ks)

/-- **Whatever the choices, a search lists every operator once.** -/
theorem Linked.perm_of_isSearchOrder (h : p.Linked) (hsearch : p.IsSearchOrder order) :
    order.Perm p.keys := by
  obtain ⟨q, rs, ks, hq, hrs, hks, rfl⟩ := hsearch
  have hexplore : q.preorder [] (rs ++ ks) = (explore q.succs (rs ++ ks) []).reverse := by
    rw [explore_eq_preorder, List.append_nil, List.reverse_reverse]
  have hnodup : (explore q.succs (rs ++ ks) []).Nodup := nodup_explore _ .nil
  rw [hexplore]
  refine (List.reverse_perm _).trans ((List.perm_ext_iff_of_nodup hnodup (nodup_keys p)).2 ?_)
  intro k
  constructor
  · refine forall_mem_explore (P := (· ∈ p.keys)) (fun j _ i hi ↦ ?_) (fun j hj ↦ ?_)
      (fun _ hj ↦ absurd hj List.not_mem_nil) k
    · exact mem_keys_iff.2 (h.contains_of_mem ((hq j).mem_iff.1 hi)).2
    · rcases List.mem_append.1 hj with hj | hj
      · exact List.mem_of_mem_filter (hrs.mem_iff.1 hj)
      · exact hks.mem_iff.1 hj
  · intro hk
    exact mem_explore_of_mem (.inl (List.mem_append_right _ (hks.mem_iff.2 hk)))

theorem Rearranges.refl (p : Plan) : p.Rearranges p :=
  fun _ ↦ .refl _

theorem isSearchOrder_depthFirstOrder (p : Plan) : p.IsSearchOrder p.depthFirstOrder :=
  ⟨p, p.roots, p.keys, .refl p, .refl _, .refl _, depthFirstOrder_eq_preorder p⟩

/-- Among the orders of all operators, the check of the stack finds out the search orders. -/
theorem Linked.verifyPreorder_eq_ok_iff (h : p.Linked) (hperm : order.Perm p.keys) :
    p.verifyPreorder [] [] order = .ok () ↔ p.IsSearchOrder order := by
  constructor
  · intro hok
    have hroots : p.roots.Nodup := (nodup_keys p).filter _
    have hsub : p.roots ⊆ order := fun r hr ↦ hperm.mem_iff.2 (List.mem_of_mem_filter hr)
    refine ⟨p.following order, order.filter (· ∈ p.roots), order, h.following_rearranges hperm,
      filter_mem_perm (nodup_of_perm hperm) hroots hsub, hperm, ?_⟩
    exact h.eq_preorder_of_verifyPreorder hperm (l := []) rfl (fun _ ↦ Iff.rfl) hok
  · rintro ⟨q, rs, ks, hq, hrs, hks, rfl⟩
    refine h.verifyPreorder_preorder hq hrs (fun j hj ↦ mem_keys_iff.1 ?_) rfl
    rcases List.mem_append.1 hj with hj | hj
    · exact List.mem_of_mem_filter (hrs.mem_iff.1 hj)
    · exact hks.mem_iff.1 hj

/-- **The check is exact among the orders of all operators.** On every plan whose edges are in
order, whether there are cycles or not, it accepts those that some depth-first search leads to and
no others; searches lead to no other orders; and depth-first walks pass. -/
theorem depth_first_check_exact (h : p.Linked) (order : List Key) :
    (order.Perm p.keys → (p.verifyDepthFirst order = .ok () ↔ p.IsSearchOrder order)) ∧
    (p.IsSearchOrder order → order.Perm p.keys ∧ p.verifyDepthFirst order = .ok ()) ∧
    ∃ ks, Walker.depthFirst.walk p = .ok ks ∧ p.verifyDepthFirst ks = .ok () := by
  have hiff : ∀ ks : List Key, ks.Perm p.keys →
      (p.verifyDepthFirst ks = .ok () ↔ p.IsSearchOrder ks) := by
    intro ks hks
    have hcovers : p.verifyCovers ks = .ok () :=
      verifyCovers_eq_ok_iff.2 ⟨nodup_of_perm hks, length_eq_size_of_perm hks⟩
    rw [← h.verifyPreorder_eq_ok_iff hks, verifyDepthFirst, hcovers]
    rfl
  have hsearch : ∀ ks, p.IsSearchOrder ks → ks.Perm p.keys ∧ p.verifyDepthFirst ks = .ok () := by
    intro ks hks
    have hperm := h.perm_of_isSearchOrder hks
    exact ⟨hperm, (hiff ks hperm).2 hks⟩
  exact ⟨hiff order, hsearch order, p.depthFirstOrder, rfl,
    (hsearch _ (isSearchOrder_depthFirstOrder p)).2⟩

/-- In the tangle, a search may go to the shared union first and enter the ring at its far end. It
may not begin with the ring, nor leave the second split before the sink has been visited. -/
theorem depth_first_check_exact_tangle :
    tangle.Linked ∧ tangle.IsSearchOrder
      [⟨"walk", 2⟩, ⟨"walk", 4⟩, ⟨"walk", 3⟩, ⟨"walk", 5⟩, ⟨"walk", 1⟩, ⟨"walk", 0⟩] ∧
    ¬tangle.IsSearchOrder
      [⟨"walk", 0⟩, ⟨"walk", 1⟩, ⟨"walk", 2⟩, ⟨"walk", 3⟩, ⟨"walk", 4⟩, ⟨"walk", 5⟩] ∧
    ¬tangle.IsSearchOrder
      [⟨"walk", 2⟩, ⟨"walk", 3⟩, ⟨"walk", 4⟩, ⟨"walk", 0⟩, ⟨"walk", 1⟩, ⟨"walk", 5⟩] := by
  have h : tangle.Linked := (checkInvariants_eq_ok_iff.1 (by decide)).1
  refine ⟨h, ?_, fun hring ↦ ?_, fun hearly ↦ ?_⟩
  · exact ((depth_first_check_exact h _).1 (by decide)).1 (by decide)
  · exact absurd ((depth_first_check_exact h _).2.1 hring).2 (by decide)
  · exact absurd ((depth_first_check_exact h _).2.1 hearly).2 (by decide)

end Plan

end Dataflow
