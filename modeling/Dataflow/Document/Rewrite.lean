import Dataflow.Document.Basic
import Dataflow.Optimizer.Basic

/-!
# Actions as transformers

What an action means for the optimizer. The check looks at the plan before anything is done: an
action needs an operator at its position, removal needs a gap that can be closed, and trimming needs
something to trim. The action `none` wants no match at all.
-/

namespace Dataflow

namespace Action

/-- An action in the words of a failure report. -/
def describe : Action → String
  | .none => "None"
  | .remove position => "Remove \x7b position: " ++ toString position.toNat ++ " \x7d"
  | .trimBelow position => "TrimBelow \x7b position: " ++ toString position.toNat ++ " \x7d"

/-- The operator that an action is about in a match. -/
def target? (a : Action) (m : Match) : Option Key :=
  a.position?.bind fun position ↦ m.get? position.toNat

/-- Whether the action can and should be carried out. -/
def check (a : Action) (p : Plan) (m : Match) : Bool :=
  match a, a.target? m with
  | .remove _, some k => (p.checkBypass k).isOk
  | .trimBelow _, some k => 0 < p.outDegree k
  | _, _ => false

/-- Carries the action out. -/
def rewrite (rule : String) (a : Action) (p : Plan) (m : Match) : Outcome OptimizerError Unit :=
  match a.target? m with
  | .none => ⟨.error (.transform rule s!"{a.describe} has no bound operator"), p⟩
  | some k =>
    match a with
    | .none => ⟨.ok (), p⟩
    | .remove _ =>
      let outcome := (p.removeAndReconnect k).mapError .plan
      ⟨outcome.answer.map fun _ ↦ (), outcome.plan⟩
    | .trimBelow _ =>
      let outcome := (p.trimBelow k).mapError .plan
      ⟨outcome.answer.map fun _ ↦ (), outcome.plan⟩

/-- The transformer that carries the action out for a rule. It makes no use of its state. -/
def transformer (σ : Type) (rule : String) (a : Action) (order : WalkOrder) : Transformer σ where
  walker _ := order.walker
  check _ p m := a.check p m
  transform s p m := (a.rewrite rule p m, s)

end Action

end Dataflow
