import Dataflow.Walk.Basic

/-!
# Visiting a plan

A visitor is shown the operators of a plan one by one, in the order of a walker, and gathers what it
wants in a state of its own. It may give up at any operator with a text that says why; what it had
gathered until then is kept.

`Visitor.printer` gathers one line for each operator: its name, key and kind, and the names of the
operators it feeds.
-/

namespace Dataflow

/-- What is done at each operator. The answer is a new state, and a reason if the visit has to
end. -/
structure Visitor (σ : Type) where
  visit : σ → Plan → Operator → Except String Unit × σ

namespace Plan

variable {σ : Type} (p : Plan)

/-- Shows the operators under `ks` to a visitor, until one is missing or the visitor gives up. -/
def visitEach (v : Visitor σ) : List Key → σ → Except PlanError Unit × σ
  | [], s => (.ok (), s)
  | k :: ks, s =>
    match p.lookup k with
    | .error e => (.error e, s)
    | .ok op =>
      match v.visit s p op with
      | (.ok (), s) => visitEach v ks s
      | (.error reason, s) => (.error (.traversal k reason), s)

/-- Shows all operators to a visitor in the order of a walker. -/
def visit (w : Walker) (v : Visitor σ) (s : σ) : Except PlanError Unit × σ :=
  match w.walk p with
  | .error e => (.error e, s)
  | .ok order => p.visitEach v order s

/-! ### Printing -/

/-- The names of those of `ks` that are in the plan. -/
def names (ks : List Key) : List String :=
  (ks.filterMap p.operator?).map (·.name)

/-- The line for an operator. -/
def line (op : Operator) : String :=
  let head := s!"{op.name} [{op.key}] {op.kind.title}"
  if (p.successors op.key).isEmpty then head
  else s!"{head} -> " ++ ", ".intercalate (p.names (p.successors op.key))

end Plan

/-- Gathers the lines of all operators. -/
def Visitor.printer : Visitor (List String) where
  visit lines p op := (.ok (), lines ++ [p.line op])

/-- Lines as a text, each with a line end. -/
def textOfLines (lines : List String) : String :=
  String.join (lines.map (· ++ "\n"))

end Dataflow
