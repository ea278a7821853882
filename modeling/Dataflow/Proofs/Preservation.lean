import Dataflow.Proofs.Validation

/-!
# What every edit preserves

Refused or not, an edit of `Dataflow.Plan.Edit` leads from a linked plan to a linked plan, from one
whose operators are stored under their own keys to another one, and from one that respects arities
to another one. For the edits that are committed in one go there is a single argument,
`commit_plan_of`: nothing changes on refusal, and otherwise the check has made sure of what the bare
change asks for.

Changing an operator in place is the exception. It keeps the edges as they are, so the arity of the
operator must not become smaller, and it must not change the key.
-/

namespace Dataflow

/-- An operator with the same key. -/
def Operator.SameKey (op op' : Operator) : Prop :=
  op'.key = op.key

/-- An operator that allows at least as much. -/
def Operator.KeepsArity (op op' : Operator) : Prop :=
  (op.multiInput → op'.multiInput) ∧ (op.multiOutput → op'.multiOutput)

theorem Operator.KeepsArity.allowsMany {op op' : Operator} (h : op.KeepsArity op') {d : Direction}
    (hop : op.allowsMany d) : op'.allowsMany d := by
  cases d with
  | inputs => exact h.1 hop
  | outputs => exact h.2 hop

namespace Plan

variable {p q : Plan}

/-- What holds before an edit and, if the verdict is in its favour, of the edited plan, holds
afterwards. -/
theorem commit_plan_of {ε α : Type} {P : Plan → Prop} {verdict : Except ε α} {edited : α → Plan}
    (hp : P p) (h : ∀ a, verdict = .ok a → P (edited a)) : P (p.commit verdict edited).plan := by
  cases verdict with
  | ok a => exact h a rfl
  | error e => exact hp

/-- What holds before a series of removals and is preserved by each holds afterwards. -/
theorem removeEach_plan_of {P : Plan → Prop} (hP : ∀ q k, P q → P (q.remove k).plan) (hp : P p)
    (ks : List Key) : P (p.removeEach ks).plan := by
  induction ks generalizing p with
  | nil => exact hp
  | cons k ks ih =>
    have hk := hP p k hp
    rw [removeEach]
    split
    next hrem => rwa [hrem] at hk
    next hrem =>
      rw [hrem] at hk
      exact ih hk

theorem trim_plan_of {P : Plan → Prop} (hP : ∀ q k, P q → P (q.remove k).plan) (hp : P p)
    (k : Key) (doomed : List Key) : P (p.trim k doomed).plan := by
  rw [trim]
  split
  · exact hp
  · exact removeEach_plan_of hP hp _

theorem disconnect_plan_of {P : Plan → Prop} {source target : Key} (hp : P p)
    (h : P (p.unlink source target)) : P (p.disconnect source target).2 := by
  rw [disconnect]
  split
  · exact h
  · exact hp

/-- When a replacement is refused, the lists that were taken out are back in their places. -/
theorem takeLists_giveLists (hs : Adjacency.Pruned p.succs) (hp : Adjacency.Pruned p.preds)
    (k : Key) : (p.takeLists k).giveLists k (p.successors k) (p.predecessors k) = p := by
  cases p
  simp only [giveLists, takeLists, successors, predecessors, Adjacency.set_erase_self hs,
    Adjacency.set_erase_self hp]

theorem replace_plan_of {P : Plan → Prop} {old : Key} {new : Operator} (h : p.Linked) (hp : P p)
    (hP : p.contains old → ¬p.contains new.key →
      checkInherit new (p.successors old) (p.predecessors old) = .ok () →
        P (p.substitute old new)) :
    P (p.replace old new).plan := by
  rw [replace]
  split
  · exact hp
  next hcheck =>
    obtain ⟨hold, hnew⟩ := checkReplace_eq_ok_iff.1 hcheck
    split
    · rwa [takeLists_giveLists h.pruned_succs h.pruned_preds]
    next hinherit => exact hP (contains_iff.2 ⟨_, hold⟩) hnew hinherit

theorem add_verdict_eq_ok {op : Operator} {k : Key} {e : PlanError}
    (h : (if p.contains op.key then Except.error e else .ok op.key) = .ok k) :
    ¬p.contains op.key := by
  split at h
  · cases h
  next hnew => exact hnew

/-! ### Keys -/

/-- A plan whose operators all come from `p` or are new under their own key. -/
theorem Keyed.of_operator? (h : p.Keyed)
    (hop : ∀ k op, q.operator? k = some op → p.operator? k = some op ∨ op.key = k) : q.Keyed :=
  fun k op hk ↦ (hop k op hk).elim (h k op) id

theorem Keyed.put (h : p.Keyed) (op : Operator) : (p.put op).Keyed := by
  refine h.of_operator? fun k op' hk ↦ ?_
  rw [operator?_put] at hk
  split at hk
  next he => exact .inr (Option.some.inj hk ▸ he.symm)
  next => exact .inl hk

theorem Keyed.discard (h : p.Keyed) (k : Key) : (p.discard k).Keyed := by
  refine h.of_operator? fun j op hj ↦ ?_
  rw [operator?_discard] at hj
  split at hj
  · cases hj
  · exact .inl hj

theorem Keyed.substitute (h : p.Keyed) (old : Key) (new : Operator) :
    (p.substitute old new).Keyed := by
  refine h.of_operator? fun j op hj ↦ ?_
  rw [operator?_substitute] at hj
  split at hj
  next he => exact .inr (Option.some.inj hj ▸ he.symm)
  next =>
    split at hj
    · cases hj
    · exact .inl hj

theorem Keyed.bypass (h : p.Keyed) (k : Key) : (p.bypass k).Keyed := by
  refine h.of_operator? fun j op hj ↦ ?_
  rw [operator?_bypass] at hj
  split at hj
  · cases hj
  · exact .inl hj

theorem Keyed.union (h : p.Keyed) (hq : q.Keyed) : (p.union q).Keyed := by
  refine h.of_operator? fun j op hj ↦ ?_
  rw [operator?_union, Option.or_eq_some_iff] at hj
  exact hj.elim (fun hj ↦ .inr (hq j op hj)) fun hj ↦ .inl hj.2

theorem operator?_modify (k : Key) (f : Operator → Operator) (j : Key) :
    (p.modify k f).operator? j = if j = k then (p.operator? k).map f else p.operator? j :=
  Table.get?_modify ..

theorem contains_modify {k j : Key} {f : Operator → Operator} :
    (p.modify k f).contains j ↔ p.contains j := by
  simp only [contains_iff, operator?_modify]
  split
  next hj => simp [hj]
  next => rfl

theorem Keyed.modify (h : p.Keyed) {k : Key} {f : Operator → Operator}
    (hf : ∀ op, p.operator? k = some op → op.SameKey (f op)) : (p.modify k f).Keyed := by
  refine h.of_operator? fun j op hj ↦ ?_
  rw [operator?_modify] at hj
  split at hj
  next he =>
    obtain ⟨op', hop', rfl⟩ := Option.map_eq_some_iff.1 hj
    exact .inr ((hf op' hop').trans ((h k op' hop').trans he.symm))
  next => exact .inl hj

section Keyed

variable (h : p.Keyed)

include h

theorem Keyed.add (op : Operator) : (p.add op).plan.Keyed :=
  commit_plan_of h fun _ _ ↦ h.put op

theorem Keyed.remove (k : Key) : (p.remove k).plan.Keyed :=
  commit_plan_of h fun _ _ ↦ h.discard k

theorem Keyed.connect (source target : Key) : (p.connect source target).plan.Keyed :=
  commit_plan_of (P := Keyed) h fun _ _ ↦ h

theorem Keyed.disconnect (source target : Key) : (p.disconnect source target).2.Keyed :=
  disconnect_plan_of (P := Keyed) h h

theorem Keyed.insertBetween (after between before : Key) :
    (p.insertBetween after between before).plan.Keyed :=
  commit_plan_of (P := Keyed) h fun _ _ ↦ h

theorem Keyed.removeAndReconnect (k : Key) : (p.removeAndReconnect k).plan.Keyed :=
  commit_plan_of h fun _ _ ↦ h.bypass k

theorem Keyed.merge (hq : q.Keyed) : (p.merge q).plan.Keyed :=
  commit_plan_of h fun _ _ ↦ h.union hq

theorem Keyed.replace (hl : p.Linked) (old : Key) (new : Operator) :
    (p.replace old new).plan.Keyed :=
  replace_plan_of hl h fun _ _ _ ↦ h.substitute old new

theorem Keyed.trim (k : Key) (doomed : List Key) : (p.trim k doomed).plan.Keyed :=
  trim_plan_of (fun _ k hq ↦ hq.remove k) h k doomed

end Keyed

/-! ### Links -/

theorem Linked.put (h : p.Linked) (op : Operator) : (p.put op).Linked :=
  h.of_operators fun _ hk ↦ contains_put.2 (.inr hk)

theorem Linked.modify (h : p.Linked) (k : Key) (f : Operator → Operator) : (p.modify k f).Linked :=
  h.of_operators fun _ hj ↦ contains_modify.2 hj

section Linked

variable (h : p.Linked)

include h

theorem Linked.add (op : Operator) : (p.add op).plan.Linked :=
  commit_plan_of h fun _ _ ↦ h.put op

theorem Linked.remove (k : Key) : (p.remove k).plan.Linked :=
  commit_plan_of h fun _ _ ↦ h.discard k

theorem Linked.connect (source target : Key) : (p.connect source target).plan.Linked := by
  refine commit_plan_of h fun _ hcheck ↦ ?_
  obtain ⟨f, hf, g, hg, hne, hnot, -⟩ := checkConnect_eq_ok_iff.1 hcheck
  exact (h.link_iff (contains_iff.2 ⟨f, hf⟩) (contains_iff.2 ⟨g, hg⟩)).2 ⟨hne, hnot⟩

theorem Linked.disconnect (source target : Key) : (p.disconnect source target).2.Linked :=
  disconnect_plan_of h (h.unlink source target)

theorem Linked.replace (old : Key) (new : Operator) : (p.replace old new).plan.Linked :=
  replace_plan_of h h fun _ hnew _ ↦ h.substitute old hnew

theorem Linked.insertBetween (after between before : Key) :
    (p.insertBetween after between before).plan.Linked := by
  refine commit_plan_of h fun _ hcheck ↦ ?_
  obtain ⟨-, op, hop, -, hedge, ⟨hne, hne'⟩, -, -, hnot, hnot'⟩ :=
    checkInsertBetween_eq_ok_iff.1 hcheck
  exact (h.reroute_iff hedge (contains_iff.2 ⟨op, hop⟩)).2 ⟨hne, hne', hnot, hnot'⟩

theorem Linked.removeAndReconnect (k : Key) : (p.removeAndReconnect k).plan.Linked := by
  refine commit_plan_of h fun op hcheck ↦ ?_
  obtain ⟨-, hk, hfree⟩ := checkBypass_eq_ok_iff.1 (removeAndReconnect_answer_eq_ok_iff.1 hcheck).1
  refine (h.bypass_iff hk).2 fun before hbefore ↦ ?_
  obtain ⟨hloop, -, -, -, hdup⟩ := hfree before ((h.head?_predecessors_iff hk).2 hbefore)
  exact ⟨hloop, hdup⟩

theorem Linked.merge (hq : q.Linked) : (p.merge q).plan.Linked :=
  commit_plan_of h fun _ hcheck ↦ h.union hq (checkMerge_eq_ok_iff.1 hcheck)

theorem Linked.trim (k : Key) (doomed : List Key) : (p.trim k doomed).plan.Linked :=
  trim_plan_of (fun _ k hq ↦ hq.remove k) h k doomed

end Linked

/-! ### Arities -/

/-- A new operator has no edges yet. -/
theorem RespectsArity.put (ha : p.RespectsArity) (h : p.Linked) {op : Operator}
    (hop : ¬p.contains op.key) : (p.put op).RespectsArity := by
  rw [respectsArity_iff]
  intro d k op' hk hlen
  replace hlen : 1 < p.degree d k := hlen
  rw [operator?_put] at hk
  split at hk
  next he =>
    have hzero := h.degree_eq_zero (he ▸ hop) d
    omega
  next => exact respectsArity_iff.1 ha d k op' hk hlen

theorem RespectsArity.modify (ha : p.RespectsArity) {k : Key} {f : Operator → Operator}
    (hf : ∀ op, p.operator? k = some op → op.KeepsArity (f op)) : (p.modify k f).RespectsArity := by
  rw [respectsArity_iff] at ha ⊢
  intro d j op hj hlen
  replace hlen : 1 < p.degree d j := hlen
  rw [operator?_modify] at hj
  split at hj
  next he =>
    obtain ⟨op', hop', rfl⟩ := Option.map_eq_some_iff.1 hj
    exact (hf op' hop').allowsMany (ha d j op' (he ▸ hop') hlen)
  next => exact ha d j op hj hlen

section RespectsArity

variable (ha : p.RespectsArity) (h : p.Linked)

include ha

theorem RespectsArity.connect (source target : Key) :
    (p.connect source target).plan.RespectsArity := by
  refine commit_plan_of ha fun _ hcheck ↦ ?_
  obtain ⟨f, hf, g, hg, -, -, hout, hin⟩ := checkConnect_eq_ok_iff.1 hcheck
  exact (ha.link_iff hf hg).2 ⟨hout, hin⟩

theorem RespectsArity.disconnect (source target : Key) :
    (p.disconnect source target).2.RespectsArity :=
  disconnect_plan_of ha (ha.unlink source target)

theorem RespectsArity.insertBetween (after between before : Key) :
    (p.insertBetween after between before).plan.RespectsArity := by
  refine commit_plan_of ha fun _ hcheck ↦ ?_
  obtain ⟨-, op, hop, -, -, -, hin, hout, -⟩ := checkInsertBetween_eq_ok_iff.1 hcheck
  exact (ha.reroute_iff hop).2 ⟨hout, hin⟩

include h

theorem RespectsArity.add (op : Operator) : (p.add op).plan.RespectsArity :=
  commit_plan_of ha fun _ hverdict ↦ ha.put h (add_verdict_eq_ok hverdict)

theorem RespectsArity.remove (k : Key) : (p.remove k).plan.RespectsArity :=
  commit_plan_of ha fun _ _ ↦ ha.discard h k

theorem RespectsArity.replace (old : Key) (new : Operator) :
    (p.replace old new).plan.RespectsArity :=
  replace_plan_of h ha fun _ _ hinherit ↦
    (ha.substitute_iff h old).2 (checkInherit_eq_ok_iff.1 hinherit)

theorem RespectsArity.removeAndReconnect (k : Key) :
    (p.removeAndReconnect k).plan.RespectsArity := by
  refine commit_plan_of ha fun op hcheck ↦ ?_
  obtain ⟨-, hk, hfree⟩ := checkBypass_eq_ok_iff.1 (removeAndReconnect_answer_eq_ok_iff.1 hcheck).1
  refine (ha.bypass_iff h hk).2 fun before op' hbefore hop' hlen ↦ ?_
  obtain ⟨-, op, hop, hmany, -⟩ := hfree before ((h.head?_predecessors_iff hk).2 hbefore)
  exact Option.some.inj (hop.symm.trans hop') ▸ hmany hlen

theorem RespectsArity.merge (hqa : q.RespectsArity) (hq : q.Linked) :
    (p.merge q).plan.RespectsArity :=
  commit_plan_of ha fun _ hcheck ↦ ha.union hqa h hq (checkMerge_eq_ok_iff.1 hcheck)

theorem RespectsArity.trim (k : Key) (doomed : List Key) : (p.trim k doomed).plan.RespectsArity :=
  (trim_plan_of (P := fun q ↦ q.Linked ∧ q.RespectsArity)
    (fun _ k hq ↦ ⟨hq.1.remove k, hq.2.remove hq.1 k⟩) ⟨h, ha⟩ k doomed).2

end RespectsArity

end Plan

end Dataflow
