import Dataflow.Walk.Basic

/-!
# Dependency order

An operator comes after everything that feeds it, or, in the reverse order, before. Operators whose
dependencies have all been ordered wait in a queue, first in, first out; at the start these are the
roots, or the leaves, in key order. Taking one from the queue settles one dependency of each of its
neighbours, and a neighbour whose last dependency was settled joins the queue.

A `Release` is a moment of this process and `Release.step` leads to the next. Counters are integers:
nothing but the shape of the plan keeps them from falling below zero. The number of positive
counters together with the length of the queue goes down by one with every step
(`weight_of_step`), so the process ends on every plan. It has ordered all operators unless there is
a cycle.
-/

namespace Dataflow

/-- How far the ordering of a plan has got. -/
structure Release where
  /-- For each operator, the number of its dependencies that are not ordered yet. -/
  pending : Table Int
  /-- Operators that may be ordered next, the one that waits longest first. -/
  ready : List Key
  /-- What has been ordered. -/
  order : List Key

namespace Release

/-- Settles one dependency of `k`. -/
def settle (r : Release) (k : Key) : Release :=
  match r.pending.get? k with
  | none => r
  | some n =>
    { r with
      pending := r.pending.insert k (n - 1)
      ready := if n - 1 = 0 then r.ready ++ [k] else r.ready }

/-- Orders the operator that waits longest; `none` when nothing waits. -/
def step (next : Adjacency) (r : Release) : Option Release :=
  match r.ready with
  | [] => none
  | k :: rest =>
    some ((Adjacency.neighbours next k).foldl settle
      { r with ready := rest, order := r.order ++ [k] })

/-- What is left to do: counters above zero and operators that wait. -/
def weight (r : Release) : Nat :=
  r.pending.entries.countP (fun e ↦ decide (0 < e.2)) + r.ready.length

theorem weight_settle (r : Release) (k : Key) : (r.settle k).weight = r.weight := by
  unfold settle
  split
  · rfl
  next n h =>
    have := Table.countP_insert (v := n - 1) (fun e ↦ decide (0 < e.2)) h
    simp only [weight]
    by_cases h₁ : n = 1
    · simp_all
      omega
    · have h₂ : n - 1 ≠ 0 := by omega
      by_cases h₃ : 0 < n
      · have : 0 < n - 1 := by omega
        simp_all
      · have : ¬0 < n - 1 := by omega
        simp_all

theorem weight_foldl_settle (ks : List Key) (r : Release) :
    (ks.foldl settle r).weight = r.weight := by
  induction ks generalizing r with
  | nil => rfl
  | cons k ks ih => rw [List.foldl_cons, ih, weight_settle]

/-- **Every step brings the end nearer.** -/
theorem weight_of_step {next : Adjacency} {r s : Release} (h : r.step next = some s) :
    s.weight + 1 = r.weight := by
  unfold step at h
  split at h
  · cases h
  next k rest hr =>
    cases h
    rw [weight_foldl_settle]
    simp only [weight, hr, List.length_cons]
    omega

/-- Steps until nothing waits. -/
def run (next : Adjacency) (r : Release) : Release :=
  match _h : r.step next with
  | none => r
  | some s => run next s
termination_by r.weight
decreasing_by
  have := weight_of_step _h
  omega

end Release

namespace Plan

variable (p : Plan)

/-- The start of an ordering along successor edges. -/
def releaseForward : Release where
  pending := p.ops.mapWithKey fun k _ ↦ (p.inDegree k : Int)
  ready := p.roots
  order := []

/-- The start of an ordering along predecessor edges. -/
def releaseBackward : Release where
  pending := p.ops.mapWithKey fun k _ ↦ (p.outDegree k : Int)
  ready := p.leaves
  order := []

/-- An ordering that lists as many operators as the plan has, or the complaint about a cycle. -/
def complete (order : List Key) : Except PlanError (List Key) :=
  if order.length = p.size then .ok order
  else .error (.structural (.cycle order.length p.size))

/-- The operators in dependency order, every one after its predecessors. -/
def dependencyOrder : Except PlanError (List Key) :=
  p.complete (p.releaseForward.run p.succs).order

/-- The operators in reverse dependency order, every one after its successors. -/
def reverseDependencyOrder : Except PlanError (List Key) :=
  p.complete (p.releaseBackward.run p.preds).order

end Plan

/-- The walker that visits what feeds an operator before the operator. -/
def Walker.dependency : Walker where
  name := "dependency"
  walk p := p.dependencyOrder

/-- The walker that visits what an operator feeds before the operator. -/
def Walker.reverseDependency : Walker where
  name := "reverse-dependency"
  walk p := p.reverseDependencyOrder

end Dataflow
