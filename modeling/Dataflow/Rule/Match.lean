import Dataflow.Rule.Basic
import Dataflow.Walk.Basic

/-!
# Matching a rule against a plan

A match binds the positions of a rule to operators, one after the other and starting from an anchor.
The candidates for a position are the successors of the operator bound at its parent, in their
order, as far as they have the right kind and are not bound already. A position that may stay empty
does so when no candidate leads to a match; positions below it then hang on the nearest bound
ancestor (`Rule.resolve`). Edges other than those to a parent are looked at when all positions are
decided. The search goes back to the last choice that has alternatives left, so the first match in
the order of candidates is the one that is found.
-/

namespace Dataflow

/-- The operators bound to the positions of a rule; `none` at a position that stays empty. -/
abbrev Bindings :=
  List (Option Key)

/-- Where a rule was found. -/
structure Match where
  /-- The operator at position zero. -/
  anchor : Key
  bindings : Bindings
  deriving DecidableEq, Inhabited, Repr

namespace Match

variable (m : Match)

/-- The operator bound to position `j`. -/
def get? (j : Nat) : Option Key :=
  m.bindings[j]?.join

/-- Whether an operator is bound to position `j`. -/
def isBound (j : Nat) : Bool :=
  (m.get? j).isSome

/-- The bound operators, by position. -/
def bound : List Key :=
  m.bindings.filterMap id

/-- The number of positions. -/
def size : Nat :=
  m.bindings.length

end Match

namespace Rule

variable (r : Rule)

/-- The operator bound at position `i` or, where that is empty, at its nearest bound ancestor. -/
def resolve (b : Bindings) (i : Nat) : Option Key :=
  match b[i]?.join with
  | some k => some k
  | none =>
    match _h : r.parent i with
    | some j => resolve b j
    | none => none
termination_by i
decreasing_by exact parent_lt _h

/-- Whether the operator under `k` may stand at position `j` beside those bound already. -/
def mayBind (p : Plan) (b : Bindings) (j : Nat) (k : Key) : Bool :=
  !b.contains (some k) &&
    match p.operator? k, r.nodes[j]? with
    | some op, some pattern => pattern.admits op.kind
    | _, _ => false

/-- What may be bound to the first position that is not decided in `b`. -/
def candidates (p : Plan) (b : Bindings) : List Key :=
  match (r.parent b.length).bind (r.resolve b) with
  | some k => (p.successors k).filter (r.mayBind p b b.length)
  | none => []

/-- Whether the edge is there: the operator its source resolves to feeds the operator bound to its
target, if one is. -/
def edgeHolds (p : Plan) (b : Bindings) (e : Nat × Nat) : Bool :=
  match b[e.2]?.join, r.resolve b e.1 with
  | none, _ => true
  | some target, some source => p.hasEdge source target
  | some _, none => false

/-- Whether the edges hold that do not come from a parent. -/
def secondaryEdgesHold (p : Plan) (b : Bindings) : Bool :=
  (r.edges.filter fun e ↦ r.parent e.2 ≠ some e.1).all (r.edgeHolds p b)

/-- Decides the positions that are not decided in `b`. -/
def extend (p : Plan) (b : Bindings) : Option Bindings :=
  if _h : b.length < r.size then
    match (r.candidates p b).findSome? fun k ↦ extend p (b ++ [some k]) with
    | some found => some found
    | none => if r.isRequired b.length then none else extend p (b ++ [none])
  else if r.secondaryEdgesHold p b then some b
  else none
termination_by r.size - b.length
decreasing_by all_goals simp only [List.length_append, List.length_singleton]; omega

/-- The match of the rule with the operator under `anchor` at position zero. -/
def matchAt (p : Plan) (anchor : Key) : Option Match :=
  if r.mayBind p [] 0 anchor then
    (r.extend p [some anchor]).map fun b ↦ ⟨anchor, b⟩
  else none

/-- The matches at all operators, in the order of a walker. -/
def findAll (p : Plan) (w : Walker) : Except PlanError (List Match) :=
  (w.walk p).map fun order ↦ order.filterMap (r.matchAt p)

end Rule

end Dataflow
