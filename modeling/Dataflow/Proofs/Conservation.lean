import Dataflow.Proofs.Atomicity

/-!
# No operator is lost

Operators enter a plan when one is added, when one takes the place of another, and with a plan that
is merged. They leave it when one is removed, bypassed or replaced, and in numbers when a plan is
trimmed; each of these calls hands back what it took out. A `Ledger` goes with a run of edits and
writes down both, and it balances: what is in the plan and what was handed back is what entered, no
operator missing and none twice.

A single edit is balanced because it is all or nothing (`Outcome.Atomic`) and because the tables
that it leaves have the right entries. The latter is read off the look-ups: the entries of a table
are, up to order, any list without repetition that answers look-ups in the same way.
-/

namespace Dataflow

/-! ### Entries up to order -/

namespace Table

variable {α : Type} {t u : Table α} {k : Key} {v : α}

theorem nodup_entries (t : Table α) : t.entries.Nodup :=
  t.ascending.imp fun hlt he ↦ Key.ne_of_lt hlt (congrArg Prod.fst he)

theorem entries_perm {l : List (Key × α)} (hl : l.Nodup)
    (h : ∀ k v, t.get? k = some v ↔ (k, v) ∈ l) : t.entries.Perm l :=
  (List.perm_ext_iff_of_nodup t.nodup_entries hl).2 fun e ↦
    get?_eq_some_iff.symm.trans (h e.1 e.2)

/-- A table with one look-up less has one entry less. -/
theorem entries_perm_cons (hv : t.get? k = some v)
    (hu : ∀ j, u.get? j = if j = k then none else t.get? j) :
    t.entries.Perm ((k, v) :: u.entries) := by
  have hnot : (k, v) ∉ u.entries := fun hmem ↦ by
    rw [← get?_eq_some_iff, hu, if_pos rfl] at hmem
    cases hmem
  refine entries_perm (List.nodup_cons.2 ⟨hnot, u.nodup_entries⟩) fun j w ↦ ?_
  rw [List.mem_cons, ← get?_eq_some_iff, hu, Prod.mk.injEq]
  split
  next hj => simp [hj, hv, eq_comm]
  next hj => simp [hj]

theorem insert_entries_perm (hk : t.get? k = none) (v : α) :
    (t.insert k v).entries.Perm ((k, v) :: t.entries) := by
  refine entries_perm_cons (by rw [get?_insert, if_pos rfl]) fun j ↦ ?_
  rw [get?_insert]
  split
  next hj => rw [hj, hk]
  next => rfl

/-- Tables that share no key make up their union. -/
theorem union_entries_perm (h : ∀ k, t.get? k = none ∨ u.get? k = none) :
    (t.union u).entries.Perm (t.entries ++ u.entries) := by
  have hdisjoint : ∀ k v w, t.get? k = some v → u.get? k ≠ some w := fun k v w hv hw ↦ by
    rcases h k with hk | hk
    · rw [hk] at hv; cases hv
    · rw [hk] at hw; cases hw
  refine entries_perm (List.nodup_append.2 ⟨t.nodup_entries, u.nodup_entries, ?_⟩) fun k v ↦ ?_
  · rintro ⟨k, v⟩ ht ⟨_, w⟩ hu ⟨⟩
    exact hdisjoint k v v (get?_eq_some_iff.2 ht) (get?_eq_some_iff.2 hu)
  · rw [List.mem_append, ← get?_eq_some_iff, ← get?_eq_some_iff, get?_union,
      Option.or_eq_some_iff]
    rcases h k with hk | hk <;> simp [hk]

end Table

namespace Plan

variable {p q : Plan} {k : Key} {op : Operator}

/-! ### What the bare changes do to the operators -/

theorem operators_put (h : ¬p.contains op.key) : (p.put op).operators.Perm (op :: p.operators) :=
  (Table.insert_entries_perm (operator?_eq_none h) op).map Prod.snd

/-- A plan that lacks one operator of another. -/
theorem operators_perm_cons (hop : p.operator? k = some op)
    (hq : ∀ j, q.operator? j = if j = k then none else p.operator? j) :
    p.operators.Perm (op :: q.operators) :=
  (Table.entries_perm_cons hop hq).map Prod.snd

theorem operators_discard (hop : p.operator? k = some op) :
    p.operators.Perm (op :: (p.discard k).operators) :=
  operators_perm_cons hop (operator?_discard k)

theorem operators_bypass (hop : p.operator? k = some op) :
    p.operators.Perm (op :: (p.bypass k).operators) :=
  operators_perm_cons hop (operator?_bypass k)

/-- As far as operators go, a substitution is a removal and an addition. -/
theorem operators_substitute {new : Operator} (hop : p.operator? k = some op)
    (hnew : ¬p.contains new.key) :
    ((p.substitute k new).operators ++ [op]).Perm (p.operators ++ [new]) := by
  have hput : (p.substitute k new).operators.Perm (new :: (p.discard k).operators) :=
    operators_put (p := p.discard k) fun hc ↦ hnew (contains_discard.1 hc).2
  refine (hput.append_right [op]).trans ?_
  refine List.Perm.trans ?_ (List.perm_append_singleton new _).symm
  exact ((List.perm_append_singleton op _).trans (operators_discard hop).symm).cons new

theorem operators_union (h : ∀ k, q.contains k → ¬p.contains k) :
    (p.union q).operators.Perm (p.operators ++ q.operators) := by
  refine ((Table.union_entries_perm fun k ↦ ?_).map Prod.snd).trans (.of_eq List.map_append)
  by_cases hk : q.contains k
  · exact .inl (Option.not_isSome_iff_eq_none.1 (h k hk))
  · exact .inr (Option.not_isSome_iff_eq_none.1 hk)

/-- A series of removals that goes through hands back what it takes out. -/
theorem operators_removeEach {ks : List Key} {ops : List Operator}
    (h : (p.removeEach ks).answer = .ok ops) :
    p.operators.Perm (ops ++ (p.removeEach ks).plan.operators) := by
  induction ks generalizing p ops with
  | nil =>
    cases h
    exact .refl _
  | cons k ks ih =>
    cases hop : p.operator? k with
    | none =>
      rw [removeEach, remove, lookup, hop] at h
      cases h
    | some op =>
      rw [removeEach, remove_eq hop] at h ⊢
      dsimp only at h ⊢
      cases hrest : ((p.discard k).removeEach ks).answer with
      | error e =>
        rw [hrest] at h
        cases h
      | ok rest =>
        rw [hrest] at h
        cases h
        exact (operators_discard hop).trans ((ih hrest).cons op)

theorem operators_trim {k : Key} {doomed : List Key} {ops : List Operator}
    (h : (p.trim k doomed).answer = .ok ops) :
    p.operators.Perm (ops ++ (p.trim k doomed).plan.operators) := by
  rw [trim] at h ⊢
  split at h
  · cases h
  · exact operators_removeEach h

end Plan

/-! ### Ledgers -/

/-- A plan together with the operators that have entered and left it. -/
structure Ledger where
  plan : Plan
  /-- The operators that were added, took the place of others, or came with a merged plan. -/
  entered : List Operator
  /-- The operators that calls have handed back. -/
  returned : List Operator

/-- The ledger of an edit from what it moves according to its answer. An edit that is refused moves
nothing. -/
def Outcome.ledger {ε α : Type} (o : Outcome ε α) (entered returned : α → List Operator) :
    Ledger where
  plan := o.plan
  entered := match o.answer with
    | .ok a => entered a
    | .error _ => []
  returned := match o.answer with
    | .ok a => returned a
    | .error _ => []

/-- A call of an edit, with its arguments. -/
inductive Edit
  | add (op : Operator)
  | remove (k : Key)
  | connect (source target : Key)
  | disconnect (source target : Key)
  | replace (old : Key) (new : Operator)
  | insertBetween (after between before : Key)
  | removeAndReconnect (k : Key)
  | merge (q : Plan)
  | trimBelow (k : Key)
  | trimAbove (k : Key)

namespace Edit

/-- The ledger of a single edit of `p`. -/
def ledger (p : Plan) : Edit → Ledger
  | add op => (p.add op).ledger (fun _ ↦ [op]) fun _ ↦ []
  | remove k => (p.remove k).ledger (fun _ ↦ []) fun op ↦ [op]
  | connect source target => (p.connect source target).ledger (fun _ ↦ []) fun _ ↦ []
  | disconnect source target => ⟨(p.disconnect source target).2, [], []⟩
  | replace old new => (p.replace old new).ledger (fun _ ↦ [new]) fun op ↦ [op]
  | insertBetween after between before =>
    (p.insertBetween after between before).ledger (fun _ ↦ []) fun _ ↦ []
  | removeAndReconnect k => (p.removeAndReconnect k).ledger (fun _ ↦ []) fun op ↦ [op]
  | merge q => (p.merge q).ledger (fun _ ↦ q.operators) fun _ ↦ []
  | trimBelow k => (p.trimBelow k).ledger (fun _ ↦ []) id
  | trimAbove k => (p.trimAbove k).ledger (fun _ ↦ []) id

/-- A merged plan has to be a plan: its edges fit together, as those of every plan do that has a
history of its own (`Reaches.sound_merge`). Nothing is asked of other arguments. -/
def Sound : Edit → Prop
  | merge q => q.Linked
  | _ => True

end Edit

namespace Ledger

/-- The empty plan, which nothing has entered or left. -/
def start : Ledger :=
  ⟨∅, [], []⟩

/-- The ledger after one more edit. -/
def record (l : Ledger) (e : Edit) : Ledger :=
  let edited := e.ledger l.plan
  ⟨edited.plan, l.entered ++ edited.entered, l.returned ++ edited.returned⟩

/-- The ledger of a run of edits from the empty plan. -/
def ofEdits (edits : List Edit) : Ledger :=
  edits.foldl record start

end Ledger

/-! ### One edit -/

variable {p : Plan}

/-- What an edit moves accounts for the change of the plan. -/
def Ledger.Accounts (p : Plan) (l : Ledger) : Prop :=
  (l.plan.operators ++ l.returned).Perm (p.operators ++ l.entered)

/-- An edit that is all or nothing only has to account for the case that it goes through. -/
theorem Outcome.Atomic.accounts {ε α : Type} {o : Outcome ε α}
    {entered returned : α → List Operator} (hatomic : o.Atomic p)
    (h : ∀ a, o.answer = .ok a →
      (o.plan.operators ++ returned a).Perm (p.operators ++ entered a)) :
    (o.ledger entered returned).Accounts p := by
  unfold Ledger.Accounts ledger
  cases ha : o.answer with
  | ok a => exact h a ha
  | error e => simp only [hatomic e ha, List.append_nil, List.Perm.refl]

/-- The same for edits that are committed in one go. -/
theorem Plan.commit_accounts {ε α : Type} {verdict : Except ε α} {edited : α → Plan}
    {entered returned : α → List Operator}
    (h : ∀ a, verdict = .ok a →
      ((edited a).operators ++ returned a).Perm (p.operators ++ entered a)) :
    ((p.commit verdict edited).ledger entered returned).Accounts p := by
  refine commit_atomic.accounts fun a ha ↦ ?_
  obtain rfl : verdict = .ok a := ha
  exact h a rfl

theorem Plan.Linked.replace_accounts (h : p.Linked) (old : Key) (new : Operator) :
    ((p.replace old new).ledger (fun _ ↦ [new]) fun op ↦ [op]).Accounts p := by
  refine (replace_atomic h old new).accounts fun op hop ↦ ?_
  obtain ⟨hold, hnew⟩ := checkReplace_eq_ok_iff.1 (replace_answer_eq_ok_iff.1 hop).1
  rw [replace_of_ok hop]
  exact operators_substitute hold hnew

theorem Plan.trim_accounts {k : Key} {doomed : List Key} (hd : doomed.Nodup)
    (hc : ∀ j ∈ doomed, p.contains j) :
    ((p.trim k doomed).ledger (fun _ ↦ []) id).Accounts p := by
  refine (trim_atomic hd hc).accounts fun ops hops ↦ ?_
  rw [List.append_nil]
  exact List.perm_append_comm.trans (operators_trim hops).symm

/-- **One edit loses nothing.** -/
theorem Edit.ledger_accounts (h : p.Linked) (e : Edit) : (e.ledger p).Accounts p := by
  cases e with
  | add op =>
    refine Plan.commit_accounts fun k hk ↦ ?_
    rw [List.append_nil]
    exact (Plan.operators_put (Plan.add_verdict_eq_ok hk)).trans
      (List.perm_append_singleton op _).symm
  | remove k =>
    refine Plan.commit_accounts fun op hop ↦ ?_
    rw [List.append_nil]
    exact (List.perm_append_singleton op _).trans
      (Plan.operators_discard (Plan.lookup_eq_ok_iff.1 hop)).symm
  | connect source target => exact Plan.commit_accounts fun _ _ ↦ .refl _
  | disconnect source target =>
    exact Plan.disconnect_plan_of (P := fun q ↦ Ledger.Accounts p ⟨q, [], []⟩) (.refl _) (.refl _)
  | replace old new => exact h.replace_accounts old new
  | insertBetween after between before => exact Plan.commit_accounts fun _ _ ↦ .refl _
  | removeAndReconnect k =>
    refine Plan.commit_accounts fun op hop ↦ ?_
    have hk := (Plan.removeAndReconnect_answer_eq_ok_iff.1 hop).2
    rw [List.append_nil]
    exact (List.perm_append_singleton op _).trans (Plan.operators_bypass hk).symm
  | merge q =>
    refine Plan.commit_accounts fun _ hcheck ↦ ?_
    rw [List.append_nil]
    exact Plan.operators_union (Plan.checkMerge_eq_ok_iff.1 hcheck)
  | trimBelow k =>
    exact Plan.trim_accounts (Plan.nodup_below k) fun _ ↦ h.contains_of_mem_below
  | trimAbove k =>
    exact Plan.trim_accounts (Plan.nodup_above k) fun _ ↦ h.contains_of_mem_above

/-- **Whatever can be built can be merged.** -/
theorem Reaches.sound_merge {allowed : Operator → Operator → Prop} (h : Reaches allowed ∅ p) :
    (Edit.merge p).Sound :=
  (h.lasting Plan.lasting_coherent ⟨Plan.keyed_empty, Plan.linked_empty⟩).linked

theorem Edit.ledger_linked (h : p.Linked) {e : Edit} (he : e.Sound) :
    (e.ledger p).plan.Linked := by
  cases e with
  | add op => exact h.add op
  | remove k => exact h.remove k
  | connect source target => exact h.connect source target
  | disconnect source target => exact h.disconnect source target
  | replace old new => exact h.replace old new
  | insertBetween after between before => exact h.insertBetween after between before
  | removeAndReconnect k => exact h.removeAndReconnect k
  | merge q => exact h.merge he
  | trimBelow k => exact h.trim k _
  | trimAbove k => exact h.trim k _

/-! ### Runs -/

namespace Ledger

/-- What is in the plan and what was handed back is what entered. -/
def Balanced (l : Ledger) : Prop :=
  (l.plan.operators ++ l.returned).Perm l.entered

theorem Balanced.record {l : Ledger} {e : Edit} (hl : l.Balanced)
    (he : (e.ledger l.plan).Accounts l.plan) : (l.record e).Balanced := by
  simp only [Balanced, Accounts, List.perm_iff_count, List.count_append] at hl he ⊢
  intro op
  have hl := hl op
  have he := he op
  simp only [Ledger.record, List.count_append]
  omega

/-- Along a run the ledger stays balanced. The induction is on the run, and the edges of the plan
have to fit together at each step: otherwise a trim might fail half-way and lose what it took
out. -/
theorem Balanced.foldl_record {edits : List Edit} (h : ∀ e ∈ edits, e.Sound) {l : Ledger}
    (hlinked : l.plan.Linked) (hl : l.Balanced) : (edits.foldl Ledger.record l).Balanced := by
  induction edits generalizing l with
  | nil => exact hl
  | cons e edits ih =>
    obtain ⟨he, hedits⟩ := List.forall_mem_cons.1 h
    exact ih hedits (e.ledger_linked hlinked he) (hl.record (e.ledger_accounts hlinked))

/-- **No operator is lost or duplicated.** After any run of edits from the empty plan, whether they
went through or were refused, the operators in the plan and those that calls have handed back are,
each as often as it occurs, the operators that entered: those that were added, that took the place
of others, or that came with a merged plan. -/
theorem operators_conserved (edits : List Edit) (h : ∀ e ∈ edits, e.Sound) :
    ((ofEdits edits).plan.operators ++ (ofEdits edits).returned).Perm (ofEdits edits).entered :=
  Balanced.foldl_record h Plan.linked_empty (.refl _)

/-- The fork is merged, its split gives way to another one, a transform is spliced in before that
one and taken out again, and the sinks are trimmed. In between, the fork is merged a second time,
the split is to be bypassed, and an operator that is gone is to be removed: this is refused. -/
def pruned : List Edit :=
  let tee : Operator := ⟨⟨"flow", 4⟩, "tee", .split, false, true⟩
  let map : Operator := ⟨⟨"flow", 5⟩, "map", .transform, false, false⟩
  [.merge Plan.fork, .replace ⟨"flow", 1⟩ tee, .merge Plan.fork, .add map,
    .insertBetween ⟨"flow", 0⟩ map.key tee.key, .removeAndReconnect tee.key,
    .removeAndReconnect map.key, .trimBelow tee.key, .remove map.key]

/-- Of six operators that enter, two stay and four are handed back. -/
theorem operators_conserved_pruned :
    (ofEdits pruned).plan.operators.map (·.name) = ["read", "tee"] ∧
      (ofEdits pruned).returned.map (·.name) = ["copy", "map", "west", "east"] ∧
      (ofEdits pruned).entered.map (·.name) = ["read", "copy", "west", "east", "tee", "map"] ∧
      ((ofEdits pruned).plan.operators ++ (ofEdits pruned).returned).Perm
        (ofEdits pruned).entered := by
  refine ⟨by cbv, by cbv, by cbv, operators_conserved _ ?_⟩
  have hhistory : Reaches (fun _ _ ↦ True) ∅ Plan.fork := Plan.reaches_fork
  have hfork : Plan.fork.Linked := hhistory.sound_merge
  simp only [pruned, List.forall_mem_cons, Edit.Sound, hfork, true_and, List.not_mem_nil,
    false_implies, implies_true]

end Ledger

end Dataflow
