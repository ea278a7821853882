import Dataflow.Walk.Basic

/-!
# Depth-first order

Pre-order along successor edges. Trees start at the roots in key order and afterwards, for whatever
no root leads to, at the remaining operators in key order; the successors of an operator are
explored in the order in which they are listed, and every operator is visited once.

`Plan.explore` keeps an explicit stack. It ends on every plan, because each round either shortens
the stack or visits an operator whose successors had not been read.
-/

namespace Dataflow

namespace Plan

/-- Explores from the top of `stack`. The result is `visited` with the newly visited operators
before it, the latest first. An operator may stand on the stack several times; it counts where it
is met first. -/
def explore (succs : Adjacency) (stack visited : List Key) : List Key :=
  match stack with
  | [] => visited
  | k :: rest =>
    if _hk : k ∈ visited then explore succs rest visited
    else
      match _h : succs.get? k with
      | none => explore succs rest (k :: visited)
      | some next => explore succs (next.filter (· ∉ k :: visited) ++ rest) (k :: visited)
termination_by (Adjacency.unread succs visited, stack.length)
decreasing_by
  · exact Prod.Lex.right _ (Nat.lt_succ_self _)
  · rcases Nat.lt_or_eq_of_le (Adjacency.unread_cons_le succs k visited) with h' | h'
    · exact Prod.Lex.left _ _ h'
    · exact h' ▸ Prod.Lex.right _ (Nat.lt_succ_self _)
  · exact Prod.Lex.left _ _ (Adjacency.unread_cons_lt _hk _h)

/-- Where trees may start: the roots and then every operator, each in key order. -/
def starts (p : Plan) : List Key :=
  p.roots ++ p.keys

/-- The operators in depth-first order. -/
def depthFirstOrder (p : Plan) : List Key :=
  (p.starts.foldl (fun visited k ↦ explore p.succs [k] visited) []).reverse

end Plan

/-- The walker that goes as deep as it can before it goes on. -/
def Walker.depthFirst : Walker where
  name := "depth-first"
  walk p := .ok p.depthFirstOrder

end Dataflow
