import Dataflow.Plan.Basic

/-!
# Checking an order

Two checks of a list of keys against a plan. `Plan.verifyTopological` accepts the orders in which
every operator stands after its predecessors. `Plan.verifyDepthFirst` accepts those in which every
operator is a successor of the deepest operator that still has unvisited ones, or, if there is none,
starts a new tree, which has to be at a root while roots remain. Both want every operator exactly
once.
-/

namespace Dataflow

/-- What is wrong with an order. -/
inductive OrderFault
  /-- Some key is listed twice. -/
  | repeated (distinct listed : Nat)
  /-- The number of keys is not that of the operators. -/
  | incomplete (listed expected : Nat)
  /-- An operator stands before one of its predecessors. -/
  | predecessorMissing (predecessor key : Key)
  /-- An operator interrupts the visit of another one's successors. -/
  | interrupted (key deepest : Key)
  /-- A tree starts below a root that has not been visited. -/
  | rootsRemained (key : Key)
  deriving DecidableEq, Repr

/-- The report of a failed comparison. -/
def comparisonMessage (text : String) (left right : Nat) : String :=
  String.join ["assertion \x60left == right\x60 failed: ", text, "\n  left: ", toString left,
    "\n right: ", toString right]

/-- The wording of a fault. -/
def OrderFault.message : OrderFault → String
  | repeated distinct listed =>
    comparisonMessage "order visits an operator twice" distinct listed
  | incomplete listed expected =>
    comparisonMessage "order does not cover the plan" listed expected
  | predecessorMissing predecessor key =>
    s!"predecessor {predecessor} not visited before operator {key}"
  | interrupted key deepest =>
    s!"operator {key} visited while {deepest} still had unvisited successors"
  | rootsRemained key => s!"operator {key} started a new tree while roots remained"

namespace Plan

variable (p : Plan)

/-- Whether the list is as long as the plan and repeats nothing. -/
def verifyCovers (order : List Key) : Except OrderFault Unit := do
  if order.eraseDups.length ≠ order.length then
    throw (.repeated order.eraseDups.length order.length)
  if order.length ≠ p.size then
    throw (.incomplete order.length p.size)

/-- Whether each of the keys stands after its predecessors, `seen` being before them all. -/
def verifyAfterPredecessors : List Key → List Key → Except OrderFault Unit
  | _, [] => .ok ()
  | seen, k :: rest =>
    match (p.predecessors k).find? (· ∉ seen) with
    | some predecessor => .error (.predecessorMissing predecessor k)
    | none => verifyAfterPredecessors (k :: seen) rest

/-- Whether the order lists every operator once, after all its predecessors. -/
def verifyTopological (order : List Key) : Except OrderFault Unit := do
  p.verifyCovers order
  p.verifyAfterPredecessors [] order

/-- Whether some successor of `k` has not been visited. -/
def isOpen (visited : List Key) (k : Key) : Bool :=
  (p.successors k).any (· ∉ visited)

/-- Whether `k` may come next when the operators on `stack`, the deepest first, are being visited;
those whose successors have all been visited are left out of account. -/
def verifyNext (visited stack : List Key) (k : Key) : Except OrderFault Unit :=
  match stack with
  | deepest :: _ =>
    if (p.successors deepest).contains k then .ok () else .error (.interrupted k deepest)
  | [] =>
    if (p.predecessors k).isEmpty || !p.roots.any (· ∉ visited) then .ok ()
    else .error (.rootsRemained k)

/-- Whether each of the keys may come when its turn is. -/
def verifyPreorder : List Key → List Key → List Key → Except OrderFault Unit
  | _, _, [] => .ok ()
  | visited, stack, k :: rest => do
    let stack := stack.dropWhile fun t ↦ !p.isOpen visited t
    p.verifyNext visited stack k
    verifyPreorder (k :: visited) (k :: stack) rest

/-- Whether the order is that of some depth-first search in pre-order. -/
def verifyDepthFirst (order : List Key) : Except OrderFault Unit := do
  p.verifyCovers order
  p.verifyPreorder [] [] order

end Plan

end Dataflow
