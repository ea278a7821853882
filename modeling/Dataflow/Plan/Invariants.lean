import Dataflow.Plan.Basic

/-!
# What holds of a plan

`Plan.checkInvariants` reads the two edge tables from end to end and reports the first thing that
does not fit: an entry without an operator, an empty or repeating list, more neighbours than the
arity flag allows, an operator that is its own neighbour, an edge that leaves the plan, or one that
is recorded at one end only.
-/

namespace Dataflow

namespace Plan

variable (p : Plan)

/-- Whether `other` may stand in the list of `k`, where `mirror` has the edges the other way. -/
def checkNeighbour (mirror : Adjacency) (k other : Key) : Except PlanError Unit := do
  if other = k then
    throw (.structural (.selfEdge k))
  if !p.contains other then
    throw (.structural (.outsideEdge k other))
  if !(Adjacency.neighbours mirror other).contains k then
    throw (.structural (.missingMirror k other))

/-- Whether the list `l` may be kept for `k` in the given direction. -/
def checkEntry (mirror : Adjacency) (direction : Direction) (k : Key) (l : List Key) :
    Except PlanError Unit :=
  match p.operator? k with
  | none => .error (.structural (.danglingEntry k))
  | some op => do
    if l.isEmpty then
      throw (.structural (.emptyEntry direction k))
    if l.length > 1 && !op.allowsMany direction then
      throw (.arity k op.name direction)
    if ¬l.Nodup then
      throw (.structural (.repeatedNeighbour direction k))
    l.forM (p.checkNeighbour mirror k)

/-- Whether every entry in the given direction may be kept. -/
def checkDirection (direction : Direction) (mirror : Adjacency) : Except PlanError Unit :=
  (p.edgesTowards direction).entries.forM fun e ↦ p.checkEntry mirror direction e.1 e.2

/-- Reads the successors and then the predecessors of every operator, in key order, and reports the
first violation. -/
def checkInvariants : Except PlanError Unit := do
  p.checkDirection .outputs p.preds
  p.checkDirection .inputs p.succs

end Plan

end Dataflow
