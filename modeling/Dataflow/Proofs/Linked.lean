import Dataflow.Plan.Invariants
import Dataflow.Proofs.Checks
import Dataflow.Proofs.Neighbours

/-!
# Linked plans

What `Plan.checkInvariants` tests, said without reference to how it goes about it. `Plan.Linked`
is about the edges alone: every edge is kept at both of its ends, joins two different operators of
the plan and is kept once, and there are no empty lists. `Plan.RespectsArity` is about the arity
flags. `checkInvariants_eq_ok_iff` says that the test succeeds exactly on the plans that have both.

That every operator is stored under its own key is a third property, `Plan.Keyed`, which the test
does not look at.
-/

namespace Dataflow

namespace Plan

/-- The two edge tables of the plan fit together and to its operators. -/
structure Linked (p : Plan) : Prop where
  pruned_succs : Adjacency.Pruned p.succs
  pruned_preds : Adjacency.Pruned p.preds
  nodup_successors : ∀ k, (p.successors k).Nodup
  nodup_predecessors : ∀ k, (p.predecessors k).Nodup
  not_mem_successors_self : ∀ k, k ∉ p.successors k
  /-- Edges lead from operators of the plan to operators of the plan. -/
  contains_of_mem : ∀ {a b}, b ∈ p.successors a → p.contains a ∧ p.contains b
  /-- **The mirror law.** -/
  mem_successors_iff : ∀ a b, b ∈ p.successors a ↔ a ∈ p.predecessors b

/-- An operator with several edges in a direction allows it. -/
structure RespectsArity (p : Plan) : Prop where
  outputs : ∀ {k op}, p.operator? k = some op → 1 < p.outDegree k → op.multiOutput
  inputs : ∀ {k op}, p.operator? k = some op → 1 < p.inDegree k → op.multiInput

/-- How many edges `k` has in the given direction. -/
def degree (p : Plan) (d : Direction) (k : Key) : Nat :=
  (Adjacency.neighbours (p.edgesTowards d) k).length

/-- Every operator is stored under its own key. -/
def Keyed (p : Plan) : Prop :=
  ∀ k op, p.operator? k = some op → op.key = k

variable {p : Plan}

/-! ### Small facts -/

theorem contains_iff {k : Key} : p.contains k ↔ ∃ op, p.operator? k = some op :=
  Option.isSome_iff_exists

theorem operator?_eq_none {k : Key} (h : ¬p.contains k) : p.operator? k = none :=
  Option.not_isSome_iff_eq_none.1 h

theorem mem_keys_iff {k : Key} : k ∈ p.keys ↔ p.contains k := by
  simp only [keys, Table.keys, contains_iff, operator?, Table.get?_eq_some_iff, List.mem_map,
    Prod.exists, exists_and_right, exists_eq_right]

theorem hasEdge_iff {a b : Key} : p.hasEdge a b ↔ b ∈ p.successors a :=
  List.contains_iff_mem

/-- Both directions at once. -/
theorem respectsArity_iff :
    p.RespectsArity ↔ ∀ d k op, p.operator? k = some op → 1 < p.degree d k → op.allowsMany d := by
  constructor
  · intro ha d k op hop hlen
    cases d with
    | inputs => exact ha.inputs hop hlen
    | outputs => exact ha.outputs hop hlen
  · intro h
    exact ⟨fun hop hlen ↦ h .outputs _ _ hop hlen, fun hop hlen ↦ h .inputs _ _ hop hlen⟩

theorem lookup_eq_ok_iff {k : Key} {op : Operator} :
    p.lookup k = .ok op ↔ p.operator? k = some op := by
  rw [lookup]
  cases p.operator? k <;> simp

namespace Linked

variable (h : p.Linked)

include h

theorem not_mem_predecessors_self (k : Key) : k ∉ p.predecessors k :=
  fun hk ↦ h.not_mem_successors_self k ((h.mem_successors_iff k k).2 hk)

theorem ne_of_mem_successors {k j : Key} (hj : j ∈ p.successors k) : j ≠ k :=
  fun he ↦ h.not_mem_successors_self k (he ▸ hj)

theorem ne_of_mem_predecessors {k j : Key} (hj : j ∈ p.predecessors k) : j ≠ k :=
  fun he ↦ h.not_mem_predecessors_self k (he ▸ hj)

/-- What is not in the plan feeds nothing. -/
theorem successors_eq_nil {k : Key} (hk : ¬p.contains k) : p.successors k = [] :=
  List.eq_nil_iff_forall_not_mem.2 fun _ hj ↦ hk (h.contains_of_mem hj).1

/-- What is not in the plan is fed by nothing. -/
theorem predecessors_eq_nil {k : Key} (hk : ¬p.contains k) : p.predecessors k = [] :=
  List.eq_nil_iff_forall_not_mem.2 fun j hj ↦
    hk (h.contains_of_mem ((h.mem_successors_iff j k).2 hj)).2

/-- What is not in the plan has no edges in either direction. -/
theorem degree_eq_zero {k : Key} (hk : ¬p.contains k) (d : Direction) : p.degree d k = 0 := by
  cases d with
  | inputs => exact congrArg List.length (h.predecessors_eq_nil hk)
  | outputs => exact congrArg List.length (h.successors_eq_nil hk)

/-- **Look-ups are all there is.** A plan without empty lists that answers look-ups of operators
and neighbours like a linked plan is that plan. -/
theorem eq_of_lookups {q : Plan} (hs : Adjacency.Pruned q.succs) (hp : Adjacency.Pruned q.preds)
    (hops : ∀ k, q.operator? k = p.operator? k) (hsuccs : ∀ k, q.successors k = p.successors k)
    (hpreds : ∀ k, q.predecessors k = p.predecessors k) : q = p := by
  have hs : q.succs = p.succs := Adjacency.ext_neighbours hs h.pruned_succs hsuccs
  have hp : q.preds = p.preds := Adjacency.ext_neighbours hp h.pruned_preds hpreds
  cases p
  cases q
  exact congr (congr (congrArg Plan.mk (Table.ext_get? hops)) hs) hp

/-- What is said of lists of neighbours can be said of every entry in either table. -/
theorem entry {d : Direction} {k : Key} {l : List Key} (hl : (p.edgesTowards d).get? k = some l) :
    p.contains k ∧ l ≠ [] ∧ l.Nodup ∧ k ∉ l ∧ ∀ j ∈ l, p.contains j := by
  have hn := Adjacency.neighbours_eq_of_get? hl
  cases d with
  | outputs =>
    replace hn : p.successors k = l := hn
    have hne : l ≠ [] := fun hnil ↦ h.pruned_succs k (hnil ▸ hl)
    obtain ⟨j, hj⟩ := List.exists_mem_of_ne_nil _ hne
    subst hn
    exact ⟨(h.contains_of_mem hj).1, hne, h.nodup_successors k, h.not_mem_successors_self k,
      fun j hj ↦ (h.contains_of_mem hj).2⟩
  | inputs =>
    replace hn : p.predecessors k = l := hn
    have hne : l ≠ [] := fun hnil ↦ h.pruned_preds k (hnil ▸ hl)
    obtain ⟨j, hj⟩ := List.exists_mem_of_ne_nil _ hne
    subst hn
    have hends : ∀ j ∈ p.predecessors k, p.contains j ∧ p.contains k :=
      fun j hj ↦ h.contains_of_mem ((h.mem_successors_iff j k).2 hj)
    exact ⟨(hends j hj).2, hne, h.nodup_predecessors k, h.not_mem_predecessors_self k,
      fun j hj ↦ (hends j hj).1⟩

end Linked

theorem linked_empty : (∅ : Plan).Linked where
  pruned_succs := .empty
  pruned_preds := .empty
  nodup_successors _ := .nil
  nodup_predecessors _ := .nil
  not_mem_successors_self _ := List.not_mem_nil
  contains_of_mem hb := nomatch hb
  mem_successors_iff _ _ := ⟨nofun, nofun⟩

theorem respectsArity_empty : (∅ : Plan).RespectsArity where
  outputs hop := nomatch hop
  inputs hop := nomatch hop

theorem keyed_empty : (∅ : Plan).Keyed :=
  fun _ _ hop ↦ nomatch hop

/-! ### What the test accepts -/

theorem checkNeighbour_eq_ok_iff {mirror : Adjacency} {k j : Key} :
    p.checkNeighbour mirror k j = .ok () ↔
      j ≠ k ∧ p.contains j ∧ k ∈ Adjacency.neighbours mirror j := by
  simp only [checkNeighbour, Check.throw_bind, Check.guard_eq_ok_iff, Check.pure_eq_ok_iff,
    Bool.not_eq_true', Bool.not_eq_false, List.contains_iff_mem, and_true, ne_eq]

/-- The list `l`, not empty, may be kept for `k`. -/
def Keeps (p : Plan) (mirror : Adjacency) (d : Direction) (k : Key) (l : List Key) : Prop :=
  (∃ op, p.operator? k = some op ∧ (1 < l.length → op.allowsMany d)) ∧ l.Nodup ∧
    ∀ j ∈ l, j ≠ k ∧ p.contains j ∧ k ∈ Adjacency.neighbours mirror j

theorem checkEntry_eq_ok_iff {mirror : Adjacency} {d : Direction} {k : Key} {l : List Key} :
    p.checkEntry mirror d k l = .ok () ↔ l ≠ [] ∧ p.Keeps mirror d k l := by
  unfold checkEntry Keeps
  cases p.operator? k with
  | none => simp
  | some op =>
    simp only [Check.throw_bind, Check.guard_eq_ok_iff, Check.forM_eq_ok_iff,
      checkNeighbour_eq_ok_iff, Option.some.injEq, exists_eq_left', List.isEmpty_iff,
      Bool.and_eq_true, decide_eq_true_eq, Bool.not_eq_true', not_and, Bool.not_eq_false,
      Decidable.not_not, gt_iff_lt, ne_eq]

/-- What the test accepts in one direction, where `mirror` has the edges the other way. -/
theorem checkDirection_eq_ok_iff {mirror : Adjacency} {d : Direction} :
    p.checkDirection d mirror = .ok () ↔
      Adjacency.Pruned (p.edgesTowards d) ∧
        ∀ k, Adjacency.neighbours (p.edgesTowards d) k ≠ [] →
          p.Keeps mirror d k (Adjacency.neighbours (p.edgesTowards d) k) := by
  refine Iff.trans ?_ (Adjacency.forall_entry_iff (Q := p.Keeps mirror d))
  simp only [checkDirection, Check.forM_eq_ok_iff, checkEntry_eq_ok_iff, Prod.forall,
    Table.get?_eq_some_iff]

section Keeps

variable (hs : ∀ k, p.successors k ≠ [] → p.Keeps p.preds .outputs k (p.successors k))
  (hp : ∀ k, p.predecessors k ≠ [] → p.Keeps p.succs .inputs k (p.predecessors k))

include hs hp

theorem linked_of_keeps (hps : Adjacency.Pruned p.succs) (hpp : Adjacency.Pruned p.preds) :
    p.Linked where
  pruned_succs := hps
  pruned_preds := hpp
  nodup_successors k := by
    by_cases hk : p.successors k = []
    · exact hk ▸ List.nodup_nil
    · exact (hs k hk).2.1
  nodup_predecessors k := by
    by_cases hk : p.predecessors k = []
    · exact hk ▸ List.nodup_nil
    · exact (hp k hk).2.1
  not_mem_successors_self k hk := ((hs k (List.ne_nil_of_mem hk)).2.2 k hk).1 rfl
  contains_of_mem {a b} hb := by
    obtain ⟨⟨op, hop, -⟩, -, hall⟩ := hs a (List.ne_nil_of_mem hb)
    exact ⟨contains_iff.2 ⟨op, hop⟩, (hall b hb).2.1⟩
  mem_successors_iff a b :=
    ⟨fun hb ↦ ((hs a (List.ne_nil_of_mem hb)).2.2 b hb).2.2,
      fun ha ↦ ((hp b (List.ne_nil_of_mem ha)).2.2 a ha).2.2⟩

theorem respectsArity_of_keeps : p.RespectsArity where
  outputs {k op} hop hlen := by
    obtain ⟨⟨op', hop', hmany⟩, -⟩ := hs k (List.ne_nil_of_length_pos (Nat.zero_lt_of_lt hlen))
    exact Option.some.inj (hop.symm.trans hop') ▸ hmany hlen
  inputs {k op} hop hlen := by
    obtain ⟨⟨op', hop', hmany⟩, -⟩ := hp k (List.ne_nil_of_length_pos (Nat.zero_lt_of_lt hlen))
    exact Option.some.inj (hop.symm.trans hop') ▸ hmany hlen

end Keeps

theorem Linked.keeps_successors (h : p.Linked) (ha : p.RespectsArity) {k : Key}
    (hk : p.successors k ≠ []) : p.Keeps p.preds .outputs k (p.successors k) := by
  obtain ⟨j, hj⟩ := List.exists_mem_of_ne_nil _ hk
  obtain ⟨op, hop⟩ := contains_iff.1 (h.contains_of_mem hj).1
  refine ⟨⟨op, hop, fun hlen ↦ ha.outputs hop hlen⟩, h.nodup_successors k, fun i hi ↦ ?_⟩
  exact ⟨h.ne_of_mem_successors hi, (h.contains_of_mem hi).2, (h.mem_successors_iff k i).1 hi⟩

theorem Linked.keeps_predecessors (h : p.Linked) (ha : p.RespectsArity) {k : Key}
    (hk : p.predecessors k ≠ []) : p.Keeps p.succs .inputs k (p.predecessors k) := by
  obtain ⟨j, hj⟩ := List.exists_mem_of_ne_nil _ hk
  have hjk := (h.mem_successors_iff j k).2 hj
  obtain ⟨op, hop⟩ := contains_iff.1 (h.contains_of_mem hjk).2
  refine ⟨⟨op, hop, fun hlen ↦ ha.inputs hop hlen⟩, h.nodup_predecessors k, fun i hi ↦ ?_⟩
  have hik := (h.mem_successors_iff i k).2 hi
  exact ⟨h.ne_of_mem_predecessors hi, (h.contains_of_mem hik).1, hik⟩

/-- **The test is exact.** It succeeds on the plans whose edges are linked and respect the arity of
the operators, and on no others. -/
theorem checkInvariants_eq_ok_iff : p.checkInvariants = .ok () ↔ p.Linked ∧ p.RespectsArity := by
  have hsplit : p.checkInvariants = .ok () ↔
      p.checkDirection .outputs p.preds = .ok () ∧ p.checkDirection .inputs p.succs = .ok () :=
    Check.unit_bind_eq_ok_iff
  rw [hsplit, checkDirection_eq_ok_iff, checkDirection_eq_ok_iff]
  constructor
  · rintro ⟨⟨hps, hs⟩, hpp, hp⟩
    exact ⟨linked_of_keeps hs hp hps hpp, respectsArity_of_keeps hs hp⟩
  · rintro ⟨h, ha⟩
    exact ⟨⟨h.pruned_succs, fun _ ↦ h.keeps_successors ha⟩,
      h.pruned_preds, fun _ ↦ h.keeps_predecessors ha⟩

end Plan

end Dataflow
