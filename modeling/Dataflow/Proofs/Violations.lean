import Dataflow.Proofs.Linked

/-!
# What the test of the invariants reports

`Plan.checkInvariants` goes through both edge tables with the same few guards and stops at the first
that throws. `Plan.Violation` lists what there can be wrong with an entry, each fault with the
complaint that is made about it, for tables of any content.

`violation_of_checkInvariants` says that every complaint is justified. A plan without faults is
therefore accepted; that there is no fault in a plan that is accepted is
`checkInvariants_eq_ok_iff`. What is said of the entries and what is said of the operators are then
two separate conditions, and the third is that the tables are mirror images.
-/

namespace Dataflow

/-- The direction in which an edge is seen from its other end. -/
def Direction.opposite : Direction → Direction
  | inputs => outputs
  | outputs => inputs

namespace Plan

/-- **Faults of a plan**, with the complaint about each. -/
inductive Violation (p : Plan) : PlanError → Prop
  /-- An entry belongs to no operator. -/
  | dangling {d : Direction} {k : Key} {l : List Key} (hl : (p.edgesTowards d).get? k = some l)
    (hk : ¬p.contains k) : Violation p (.structural (.danglingEntry k))
  | empty {d : Direction} {k : Key} (hl : (p.edgesTowards d).get? k = some []) :
    Violation p (.structural (.emptyEntry d k))
  /-- An operator has several neighbours in a direction that takes one. -/
  | crowded {d : Direction} {k : Key} {l : List Key} {op : Operator}
    (hl : (p.edgesTowards d).get? k = some l) (hop : p.operator? k = some op)
    (hlen : 1 < l.length) (hmany : op.allowsMany d = false) : Violation p (.arity k op.name d)
  | repeated {d : Direction} {k : Key} {l : List Key} (hl : (p.edgesTowards d).get? k = some l)
    (hnodup : ¬l.Nodup) : Violation p (.structural (.repeatedNeighbour d k))
  | selfEdge {d : Direction} {k : Key} {l : List Key} (hl : (p.edgesTowards d).get? k = some l)
    (hk : k ∈ l) : Violation p (.structural (.selfEdge k))
  | outside {d : Direction} {k j : Key} {l : List Key} (hl : (p.edgesTowards d).get? k = some l)
    (hj : j ∈ l) (hout : ¬p.contains j) : Violation p (.structural (.outsideEdge k j))
  /-- An edge is not kept at its other end. -/
  | unmirrored {d : Direction} {k j : Key} {l : List Key} (hl : (p.edgesTowards d).get? k = some l)
    (hj : j ∈ l) (hk : k ∉ Adjacency.neighbours (p.edgesTowards d.opposite) j) :
    Violation p (.structural (.missingMirror k j))

variable {p : Plan} {d : Direction} {k j : Key} {l : List Key} {e : PlanError}

/-! ### Complaints are justified -/

theorem violation_of_checkNeighbour (hl : (p.edgesTowards d).get? k = some l) (hj : j ∈ l)
    (he : p.checkNeighbour (p.edgesTowards d.opposite) k j = .error e) : p.Violation e := by
  simp only [checkNeighbour, Check.throw_bind, Check.guard_eq_error_iff, Check.pure_ne_error,
    and_false, or_false] at he
  rcases he with ⟨rfl, rfl⟩ | ⟨-, ⟨hout, rfl⟩ | ⟨-, hmirror, rfl⟩⟩
  · exact .selfEdge hl hj
  · exact .outside hl hj (by simpa using hout)
  · exact .unmirrored hl hj (by simpa using hmirror)

theorem violation_of_checkEntry (hl : (p.edgesTowards d).get? k = some l)
    (he : p.checkEntry (p.edgesTowards d.opposite) d k l = .error e) : p.Violation e := by
  unfold checkEntry at he
  split at he
  next hnone =>
    cases he
    exact .dangling hl fun hk ↦ by
      obtain ⟨op, hop⟩ := contains_iff.1 hk
      cases hnone.symm.trans hop
  next op hop =>
    simp only [Check.throw_bind, Check.guard_eq_error_iff] at he
    rcases he with ⟨hnil, rfl⟩ | ⟨-, ⟨hlen, rfl⟩ | ⟨-, ⟨hnodup, rfl⟩ | ⟨-, hrest⟩⟩⟩
    · exact .empty (hl.trans (congrArg some (List.isEmpty_iff.1 hnil)))
    · rw [Bool.and_eq_true, decide_eq_true_eq, Bool.not_eq_true'] at hlen
      exact .crowded hl hop hlen.1 hlen.2
    · exact .repeated hl hnodup
    · obtain ⟨j, hj, hje⟩ := Check.exists_of_forM_eq_error hrest
      exact violation_of_checkNeighbour hl hj hje

theorem violation_of_checkDirection
    (he : p.checkDirection d (p.edgesTowards d.opposite) = .error e) : p.Violation e := by
  obtain ⟨⟨k, l⟩, hmem, hkl⟩ := Check.exists_of_forM_eq_error he
  exact violation_of_checkEntry (Table.get?_eq_some_iff.2 hmem) hkl

/-- **What is reported is so.** -/
theorem violation_of_checkInvariants (he : p.checkInvariants = .error e) : p.Violation e := by
  rcases Check.unit_bind_eq_error_iff.1 he with houtputs | ⟨-, hinputs⟩
  · exact violation_of_checkDirection (d := .outputs) houtputs
  · exact violation_of_checkDirection (d := .inputs) hinputs

/-! ### No fault without a complaint -/

/-- What is demanded of the entries of both tables. -/
def EntriesFit (p : Plan) : Prop :=
  ∀ d k l, (p.edgesTowards d).get? k = some l →
    p.contains k ∧ l ≠ [] ∧ l.Nodup ∧ k ∉ l ∧ ∀ j ∈ l, p.contains j

/-- Each table is the mirror image of the other. -/
def Mirrored (p : Plan) : Prop :=
  ∀ a b, b ∈ p.successors a ↔ a ∈ p.predecessors b

/-- An entry is seen again from the other end of each of its edges. -/
theorem Mirrored.mem_opposite (h : p.Mirrored) (hl : (p.edgesTowards d).get? k = some l)
    (hj : j ∈ l) : k ∈ Adjacency.neighbours (p.edgesTowards d.opposite) j := by
  rw [← Adjacency.neighbours_eq_of_get? hl] at hj
  cases d with
  | outputs => exact (h k j).1 hj
  | inputs => exact (h j k).2 hj

/-- A plan that meets the three demands has no fault. -/
theorem not_violation (hfit : p.EntriesFit) (harity : p.RespectsArity) (hmirror : p.Mirrored)
    (e : PlanError) : ¬p.Violation e := by
  rintro (@⟨d, k, l, hl, hk⟩ | @⟨d, k, hl⟩ | @⟨d, k, l, op, hl, hop, hlen, hmany⟩ |
    @⟨d, k, l, hl, hnodup⟩ | @⟨d, k, l, hl, hk⟩ | @⟨d, k, j, l, hl, hj, hout⟩ |
    @⟨d, k, j, l, hl, hj, hk⟩)
  · exact hk (hfit d k l hl).1
  · exact (hfit d k [] hl).2.1 rfl
  · rw [← Adjacency.neighbours_eq_of_get? hl] at hlen
    rw [respectsArity_iff.1 harity d k op hop hlen] at hmany
    cases hmany
  · exact hnodup (hfit d k l hl).2.2.1
  · exact (hfit d k l hl).2.2.2.1 hk
  · exact hout ((hfit d k l hl).2.2.2.2 j hj)
  · exact hk (hmirror.mem_opposite hl hj)

/-- **The test is exact, and honest.** Whatever the three tables hold, the test succeeds exactly if
every entry belongs to an operator, is not empty, repeats nothing, leaves out its own key and names
operators only; every operator with several successors or predecessors supports them; and the
tables are mirror images. Where it does not succeed, the plan has the fault that is reported. -/
theorem invariants_check_exact (p : Plan) :
    (p.checkInvariants = .ok () ↔ p.EntriesFit ∧ p.RespectsArity ∧ p.Mirrored) ∧
      ∀ e, p.checkInvariants = .error e → p.Violation e := by
  refine ⟨⟨fun hok ↦ ?_, fun ⟨hfit, harity, hmirror⟩ ↦ ?_⟩, fun _ ↦ violation_of_checkInvariants⟩
  · obtain ⟨h, harity⟩ := checkInvariants_eq_ok_iff.1 hok
    exact ⟨fun _ _ _ hl ↦ h.entry hl, harity, h.mem_successors_iff⟩
  · -- A complaint would be justified, and there is nothing to complain about.
    cases hcheck : p.checkInvariants with
    | ok => rfl
    | error e =>
      exact absurd (violation_of_checkInvariants hcheck) (not_violation hfit harity hmirror e)

/-- The operator feeds two keys, one of them outside the plan, and neither edge is kept at its other
end. The arity is reported first, and if that is in order, the edge that leads out. -/
example (many : Bool) :
    let split : Operator := ⟨⟨"", 0⟩, "fan", .split, false, many⟩
    let sink : Operator := ⟨⟨"", 1⟩, "end", .sink, false, false⟩
    let p : Plan := ⟨.ofList [(split.key, split), (sink.key, sink)],
      .ofList [(split.key, [⟨"", 2⟩, sink.key])], ∅⟩
    p.checkInvariants = .error
      (if many then .structural (.outsideEdge ⟨"", 0⟩ ⟨"", 2⟩)
        else .arity ⟨"", 0⟩ "fan" .outputs) := by
  cases many <;> decide

end Plan

end Dataflow
