import Dataflow.Operator

/-!
# Why an edit or a walk is refused

Every refusal has a cause, a value of `PlanError`. The wording of a cause is given once, by
`PlanError.message`. Causes that concern the shape of the plan, and that another rewrite might
avoid, are told apart by `PlanError.isStructural`.
-/

namespace Dataflow

/-- Ways in which the shape of a plan stands against an edit, or is itself at fault. -/
inductive StructuralFault
  /-- An edge from an operator to itself was asked for. -/
  | selfConnection (key : Key)
  /-- The edge that was asked for exists. -/
  | alreadyConnected (source target : Key)
  /-- There is no edge into which an operator could be inserted. -/
  | notConnected (after before : Key)
  /-- An operator was to be inserted next to itself. -/
  | insertedBesideItself (between : Key)
  /-- The operator to insert would get a second edge in a direction that takes one. -/
  | insertedTwice (name : String) (between : Key) (direction : Direction)
  /-- An edge of the inserted operator exists. -/
  | insertionDuplicates (between after before : Key)
  /-- An operator with several predecessors cannot be bypassed. -/
  | severalPredecessors (key : Key) (count : Nat)
  /-- Bypassing would connect the predecessor to itself. -/
  | bypassLoops (key predecessor : Key)
  /-- Bypassing would repeat an edge. -/
  | bypassDuplicates (predecessor successor : Key)
  /-- Edges are kept for a key that has no operator. -/
  | danglingEntry (key : Key)
  /-- An empty list of edges is kept. -/
  | emptyEntry (direction : Direction) (key : Key)
  /-- A list of edges names an operator twice. -/
  | repeatedNeighbour (direction : Direction) (key : Key)
  /-- An operator is its own neighbour. -/
  | selfEdge (key : Key)
  /-- An edge leads out of the plan. -/
  | outsideEdge (key other : Key)
  /-- An edge is recorded at one of its ends only. -/
  | missingMirror (key other : Key)
  /-- Not every operator could be put in dependency order. -/
  | cycle (ordered total : Nat)
  deriving DecidableEq, Repr

/-- The wording of a structural fault. -/
def StructuralFault.message : StructuralFault → String
  | selfConnection key => s!"Attempt to connect operator {key} to itself"
  | alreadyConnected source target => s!"Operators {source} and {target} are already connected"
  | notConnected after before =>
    s!"Attempt to insert between two nodes that were not connected: {after} and {before}"
  | insertedBesideItself between =>
    s!"Cannot insert operator {between} between itself and a neighbour"
  | insertedTwice name between direction =>
    s!"Inserting {name} ({between}) would give it multiple {direction}"
  | insertionDuplicates between after before =>
    s!"Inserting {between} between {after} and {before} would duplicate an edge"
  | severalPredecessors key count =>
    s!"Cannot remove and reconnect {key}: it has {count} predecessors"
  | bypassLoops key predecessor =>
    s!"Reconnecting around {key} would connect {predecessor} to itself"
  | bypassDuplicates predecessor successor =>
    s!"Reconnecting {predecessor} to {successor} would duplicate an edge"
  | danglingEntry key => s!"dangling edge at {key}"
  | emptyEntry direction key => s!"empty {direction} list at {key}"
  | repeatedNeighbour direction key => s!"duplicate {direction} at {key}"
  | selfEdge key => s!"self-edge at {key}"
  | outsideEdge key other => s!"edge {key} <-> {other} points outside the plan"
  | missingMirror key other => s!"edge {key} <-> {other} is missing its mirror"
  | cycle ordered total => s!"plan contains a cycle: ordered {ordered} of {total} operators"

/-- The cause of a refused edit, check, walk or visit. -/
inductive PlanError
  | notInPlan (key : Key)
  | duplicateKey (key : Key)
  /-- An operator would have more edges in one direction than its arity flag allows. -/
  | arity (key : Key) (name : String) (direction : Direction)
  | structural (fault : StructuralFault)
  /-- A visitor gave up at an operator, for the reason given by its own text. -/
  | traversal (key : Key) (reason : String)
  deriving DecidableEq, Repr

namespace PlanError

/-- The wording of an error. -/
def message : PlanError → String
  | notInPlan key => s!"Operator {key} is not in the plan"
  | duplicateKey key => s!"Operator {key} is already in the plan"
  | arity key name direction =>
    s!"Attempt to give operator {name} ({key}) multiple {direction}. " ++
      s!"This operator does not support multiple {direction}."
  | structural fault => s!"Structural error: {fault.message}"
  | traversal key reason => s!"Traversal failed at operator {key}: {reason}"

/-- Whether the shape of the plan is the cause, so that a different rewrite may succeed. -/
def isStructural : PlanError → Bool
  | arity .. => true
  | structural _ => true
  | _ => false

end PlanError

end Dataflow
