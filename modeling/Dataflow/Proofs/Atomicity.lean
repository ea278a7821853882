import Dataflow.Proofs.Histories
import Dataflow.Proofs.Reachability

/-!
# All or nothing

An edit that is refused leaves the plan as it found it. For the edits that check first and commit
second this is how they are made. Two kinds of edits are made differently. A replacement takes two
lists out before it has finished its checks, and puts them back. A trim removes one operator after
the other by a call that may fail; it never does, because what is trimmed is listed once and is in
the plan.
-/

namespace Dataflow

/-- If the edit was refused, the plan is what it was before. -/
def Outcome.Atomic {ε α : Type} (before : Plan) (o : Outcome ε α) : Prop :=
  ∀ e, o.answer = .error e → o.plan = before

/-- An edit that succeeds is atomic. -/
theorem Outcome.Atomic.of_ok {ε α : Type} {before : Plan} {o : Outcome ε α} {a : α}
    (h : o.answer = .ok a) : o.Atomic before := by
  intro e he
  rw [h] at he
  cases he

/-! ### Keys in order -/

theorem Key.sort_perm (ks : List Key) : (Key.sort ks).Perm ks :=
  List.mergeSort_perm ..

theorem Key.mem_sort {k : Key} {ks : List Key} : k ∈ Key.sort ks ↔ k ∈ ks :=
  (Key.sort_perm ks).mem_iff

theorem Key.nodup_sort {ks : List Key} : (Key.sort ks).Nodup ↔ ks.Nodup :=
  (Key.sort_perm ks).nodup_iff

namespace Plan

variable {p : Plan}

/-! ### Edits that are committed in one go, and replacement -/

theorem commit_atomic {ε α : Type} {verdict : Except ε α} {edited : α → Plan} :
    (p.commit verdict edited).Atomic p := by
  cases verdict with
  | ok a => exact .of_ok rfl
  | error e => exact fun _ _ ↦ rfl

theorem disconnect_eq_self {source target : Key} (h : (p.disconnect source target).1 = false) :
    (p.disconnect source target).2 = p := by
  unfold disconnect at h ⊢
  split at h
  · cases h
  next hedge => rw [if_neg hedge]

theorem replace_atomic (h : p.Linked) (old : Key) (new : Operator) :
    (p.replace old new).Atomic p := by
  rw [replace]
  split
  · exact fun _ _ ↦ rfl
  · split
    · exact fun _ _ ↦ takeLists_giveLists h.pruned_succs h.pruned_preds old
    · exact .of_ok rfl

/-! ### Trims -/

theorem remove_eq {k : Key} {op : Operator} (hop : p.operator? k = some op) :
    p.remove k = ⟨.ok op, p.discard k⟩ := by
  rw [remove, lookup, hop]
  rfl

/-- Operators that are there can be removed one after the other. -/
theorem removeEach_eq {ks : List Key} (hks : ks.Nodup) (hc : ∀ k ∈ ks, p.contains k) :
    p.removeEach ks = ⟨.ok (ks.filterMap p.operator?), ks.foldl discard p⟩ := by
  induction ks generalizing p with
  | nil => rfl
  | cons k ks ih =>
    obtain ⟨hk, hks⟩ := List.nodup_cons.1 hks
    obtain ⟨op, hop⟩ := contains_iff.1 (hc k (List.mem_cons_self ..))
    -- The operators that are still to go are not touched.
    have hothers : ∀ j ∈ ks, (p.discard k).operator? j = p.operator? j := fun j hj ↦ by
      rw [operator?_discard, if_neg (ne_of_mem_of_not_mem hj hk)]
    have hc' : ∀ j ∈ ks, (p.discard k).contains j := fun j hj ↦
      contains_discard.2 ⟨ne_of_mem_of_not_mem hj hk, hc j (.tail _ hj)⟩
    rw [removeEach, remove_eq hop]
    dsimp only
    rw [ih hks hc', List.filterMap_cons, hop, List.filterMap_congr hothers]
    rfl

/-- What is in the plan, listed once, can be trimmed. -/
theorem trim_eq {k : Key} {doomed : List Key} (hk : p.contains k) (hd : doomed.Nodup)
    (hc : ∀ j ∈ doomed, p.contains j) :
    p.trim k doomed =
      let ks := Key.sort (doomed.filter (· ≠ k))
      ⟨.ok (ks.filterMap p.operator?), ks.foldl discard p⟩ := by
  obtain ⟨op, hop⟩ := contains_iff.1 hk
  have hks : (Key.sort (doomed.filter (· ≠ k))).Nodup := Key.nodup_sort.2 (hd.filter _)
  have hcs : ∀ j ∈ Key.sort (doomed.filter (· ≠ k)), p.contains j := fun j hj ↦
    hc j (List.mem_of_mem_filter (Key.mem_sort.1 hj))
  rw [trim, lookup_eq_ok_iff.2 hop]
  exact removeEach_eq hks hcs

theorem trim_atomic {k : Key} {doomed : List Key} (hd : doomed.Nodup)
    (hc : ∀ j ∈ doomed, p.contains j) : (p.trim k doomed).Atomic p := by
  by_cases hk : p.contains k
  · rw [trim_eq hk hd hc]
    exact .of_ok rfl
  · intro e _
    rw [trim]
    split
    · rfl
    next op hop => exact absurd (contains_iff.2 ⟨op, lookup_eq_ok_iff.1 hop⟩) hk

/-- **Refused edits change nothing.** In every plan that can be built from nothing, whatever is
asked for: what is refused leaves the three tables as they are. Trims in particular either find
their operator missing at once, or go through. -/
theorem refused_edits_change_nothing (hp : Reaches (fun _ _ ↦ True) ∅ p) :
    (∀ op, (p.add op).Atomic p) ∧
    (∀ k, (p.remove k).Atomic p) ∧
    (∀ source target, (p.connect source target).Atomic p) ∧
    (∀ source target, (p.disconnect source target).1 = false →
      (p.disconnect source target).2 = p) ∧
    (∀ old new, (p.replace old new).Atomic p) ∧
    (∀ after between before, (p.insertBetween after between before).Atomic p) ∧
    (∀ k, (p.removeAndReconnect k).Atomic p) ∧
    (∀ q, (p.merge q).Atomic p) ∧
    (∀ k, (p.trimBelow k).Atomic p ∧ (p.trimAbove k).Atomic p) ∧
    ∀ k, p.contains k →
      (∃ ops, (p.trimBelow k).answer = .ok ops) ∧ ∃ ops, (p.trimAbove k).answer = .ok ops := by
  have h := (hp.lasting lasting_coherent ⟨keyed_empty, linked_empty⟩).linked
  have hbelow : ∀ k, ∀ j ∈ p.below k, p.contains j := fun _ _ ↦ h.contains_of_mem_below
  have habove : ∀ k, ∀ j ∈ p.above k, p.contains j := fun _ _ ↦ h.contains_of_mem_above
  refine ⟨fun _ ↦ commit_atomic, fun _ ↦ commit_atomic, fun _ _ ↦ commit_atomic,
    fun _ _ ↦ disconnect_eq_self, replace_atomic h, fun _ _ _ ↦ commit_atomic,
    fun _ ↦ commit_atomic, fun _ ↦ commit_atomic, fun k ↦ ⟨?_, ?_⟩, fun k hk ↦ ⟨?_, ?_⟩⟩
  · exact trim_atomic (nodup_below k) (hbelow k)
  · exact trim_atomic (nodup_above k) (habove k)
  · rw [trimBelow, trim_eq hk (nodup_below k) (hbelow k)]
    exact ⟨_, rfl⟩
  · rw [trimAbove, trim_eq hk (nodup_above k) (habove k)]
    exact ⟨_, rfl⟩

/-- In the fork, the split cannot give way to a transform: the refusal comes when its lists have
been taken out already, and leaves the fork as it is. What lies below the split can be trimmed. -/
theorem refused_edits_change_nothing_fork :
    Reaches (fun _ _ ↦ True) ∅ fork ∧
      (fork.replace ⟨"flow", 1⟩ ⟨⟨"flow", 4⟩, "map", .transform, false, false⟩).plan = fork ∧
      ∃ ops, (fork.trimBelow ⟨"flow", 1⟩).answer = .ok ops := by
  obtain ⟨-, -, -, -, hreplace, -, -, -, -, htrims⟩ := refused_edits_change_nothing reaches_fork
  refine ⟨reaches_fork, hreplace _ _ _ rfl, (htrims _ ?_).1⟩
  decide

end Plan

end Dataflow
