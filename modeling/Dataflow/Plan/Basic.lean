import Dataflow.Adjacency
import Dataflow.Plan.Error

/-!
# Plans

A plan is a table of operators together with its edges, which are kept twice: as the successors of
each operator and as the predecessors of each operator. Both are lists in the order in which edges
were added.

The type by itself promises nothing about how the three tables fit together. What has to hold is
what `Plan.checkInvariants` tests, in `Dataflow.Plan.Invariants`; the edits in `Dataflow.Plan.Edit`
are written so that it holds of every plan they lead to. This module has the questions one can ask
of a plan.
-/

namespace Dataflow

/-- Operators and the edges between them. -/
structure Plan where
  ops : Table Operator
  /-- For each operator that has any, the operators it feeds. -/
  succs : Adjacency
  /-- For each operator that has any, the operators it is fed by. -/
  preds : Adjacency
  deriving DecidableEq

namespace Plan

instance : EmptyCollection Plan :=
  ⟨⟨∅, ∅, ∅⟩⟩

instance : Inhabited Plan :=
  ⟨∅⟩

variable (p : Plan)

/-! ### Operators -/

/-- The operator stored under `k`. -/
def operator? (k : Key) : Option Operator :=
  p.ops.get? k

/-- The operator stored under `k`, or the complaint that there is none. -/
def lookup (k : Key) : Except PlanError Operator :=
  match p.operator? k with
  | some op => .ok op
  | none => .error (.notInPlan k)

/-- Whether there is an operator under `k`. -/
def contains (k : Key) : Bool :=
  p.ops.contains k

/-- The keys of all operators, ascending. -/
def keys : List Key :=
  p.ops.keys

/-- All operators, in key order. -/
def operators : List Operator :=
  p.ops.values

/-- The number of operators. -/
def size : Nat :=
  p.ops.size

/-- Whether there are no operators. -/
def isEmpty : Bool :=
  p.size == 0

/-- The name of the operator under `k`; `?` where there is none. -/
def nameOf (k : Key) : String :=
  match p.operator? k with
  | some op => op.name
  | none => "?"

/-! ### Edges -/

/-- The edges of a plan seen in one direction: what each operator feeds, or is fed by. -/
def edgesTowards : Direction → Adjacency
  | .outputs => p.succs
  | .inputs => p.preds

/-- The operators that `k` feeds, in order. -/
def successors (k : Key) : List Key :=
  Adjacency.neighbours p.succs k

/-- The operators that feed `k`, in order. -/
def predecessors (k : Key) : List Key :=
  Adjacency.neighbours p.preds k

/-- Whether there is an edge from `source` to `target`. -/
def hasEdge (source target : Key) : Bool :=
  (p.successors source).contains target

/-- How many edges enter `k`. -/
def inDegree (k : Key) : Nat :=
  (p.predecessors k).length

/-- How many edges leave `k`. -/
def outDegree (k : Key) : Nat :=
  (p.successors k).length

/-- Every edge as source and target, grouped by source. -/
def edges : List (Key × Key) :=
  Adjacency.pairs p.succs

/-- Every edge as target and source, grouped by target. -/
def reverseEdges : List (Key × Key) :=
  Adjacency.pairs p.preds

/-- The number of edges. -/
def edgeCount : Nat :=
  Adjacency.pairCount p.succs

/-! ### The ends of a plan -/

/-- Operators that nothing feeds, in key order. -/
def roots : List Key :=
  p.keys.filter fun k ↦ !p.preds.contains k

/-- Operators that feed nothing, in key order. -/
def leaves : List Key :=
  p.keys.filter fun k ↦ !p.succs.contains k

/-- Whether exactly one operator feeds nothing. -/
def hasSingleLeaf : Bool :=
  p.leaves.length == 1

/-! ### Paths -/

/-- Everything below `k`: what can be reached from it along edges, `k` itself only by a cycle. -/
def below (k : Key) : List Key :=
  Adjacency.closure p.succs k

/-- Everything above `k`: what can reach it along edges, `k` itself only by a cycle. -/
def above (k : Key) : List Key :=
  Adjacency.closure p.preds k

/-- Whether a path of one or more edges leads from `source` to `target`. -/
def pathExists (source target : Key) : Bool :=
  (p.below source).contains target

end Plan

end Dataflow
