import Dataflow.Document.Basic
import Dataflow.Data.Tree
import Dataflow.Json.Basic

/-!
# Documents as data

How documents are read from data and written as JSON. In writing every field appears, an absent one
as null; in reading most may be left out.
-/

namespace Dataflow

open DataTree

variable {V : Type} [DataTree V]

/-! ### Names of alternatives -/

/-- A kind by its exact name. -/
def Kind.decode? (v : V) : Option Kind := do
  Kind.ofName? (← name? v)

/-- A built-in walker by its exact name. -/
def WalkOrder.decode? (v : V) : Option WalkOrder := do
  WalkOrder.ofName? (← name? v)

/-! ### Settings -/

namespace Settings

/-- Settings as an object. -/
def toJson (s : Settings) : Json :=
  .obj [("max_passes", Json.ofOption (fun n ↦ .nat n.toNat) s.maxPasses?),
    ("trace_rewrites", Json.ofOption .bool s.traceRewrites?)]

/-- The settings that a value describes. -/
def decode? (v : V) : Option Settings := do
  let fields ← record? ["max_passes", "trace_rewrites"] v
  return {
    maxPasses? := ← withDefault fields "max_passes" none (optional? word?)
    traceRewrites? := ← withDefault fields "trace_rewrites" none (optional? flag?) }

end Settings

/-! ### Operators and edges -/

namespace OperatorEntry

/-- An operator as an object. -/
def toJson (o : OperatorEntry) : Json :=
  .obj [("name", .str o.name), ("kind", .str o.kind.name),
    ("multi_input", Json.ofOption .bool o.multiInput?),
    ("multi_output", Json.ofOption .bool o.multiOutput?)]

/-- The operator that a value describes. -/
def decode? (v : V) : Option OperatorEntry := do
  let fields ← record? ["name", "kind", "multi_input", "multi_output"] v
  return {
    name := ← required fields "name" text?
    kind := ← required fields "kind" Kind.decode?
    multiInput? := ← withDefault fields "multi_input" none (optional? flag?)
    multiOutput? := ← withDefault fields "multi_output" none (optional? flag?) }

end OperatorEntry

namespace EdgeEntry

/-- An edge as an object. -/
def toJson (e : EdgeEntry) : Json :=
  .obj [("from", .str e.source), ("to", .str e.target)]

/-- The edge that a value describes. -/
def decode? (v : V) : Option EdgeEntry := do
  let fields ← record? ["from", "to"] v
  return {
    source := ← required fields "from" text?
    target := ← required fields "to" text? }

end EdgeEntry

/-! ### Rules -/

namespace Action

/-- An action as an object that names it, and the position it is about. -/
def toJson : Action → Json
  | .none => .obj [("op", .str "none")]
  | .remove position => .obj [("op", .str "remove"), ("position", .nat position.toNat)]
  | .trimBelow position => .obj [("op", .str "trim_below"), ("position", .nat position.toNat)]

/-- The names of the actions, with those of their fields. -/
def alternatives : List (String × List String) :=
  [("none", []), ("remove", ["position"]), ("trim_below", ["position"])]

/-- The action that a value describes. -/
def decode? (v : V) : Option Action := do
  let (name, fields) ← choice? "op" alternatives v
  match name with
  | "none" => return .none
  | "remove" => return .remove (← required fields "position" word?)
  | "trim_below" => return .trimBelow (← required fields "position" word?)
  | _ => .none

end Action

namespace RuleEntry

/-- A pattern edge as an array of two positions. -/
def edgeToJson (e : UInt64 × UInt64) : Json :=
  .arr [.nat e.1.toNat, .nat e.2.toNat]

/-- A rule as an object. -/
def toJson (r : RuleEntry) : Json :=
  .obj [("name", .str r.name), ("nodes", Json.ofList .str r.nodes),
    ("edges", Json.ofList edgeToJson r.edges),
    ("optional", Json.ofList (fun n ↦ .nat n.toNat) r.optional), ("action", r.action.toJson),
    ("walker", Json.ofOption (fun o ↦ .str o.name) r.walker?)]

/-- The rule that a value describes. -/
def decode? (v : V) : Option RuleEntry := do
  let fields ← record? ["name", "nodes", "edges", "optional", "action", "walker"] v
  return {
    name := ← required fields "name" text?
    nodes := ← required fields "nodes" (list? text?)
    edges := ← withDefault fields "edges" [] (list? (pair? word? word?))
    optional := ← withDefault fields "optional" [] (list? word?)
    action := ← withDefault fields "action" .none Action.decode?
    walker? := ← withDefault fields "walker" none (optional? WalkOrder.decode?) }

end RuleEntry

/-! ### Documents -/

namespace Document

/-- A document as an object. -/
def toJson (d : Document) : Json :=
  .obj [("config", Json.ofOption Settings.toJson d.settings?),
    ("walker", Json.ofOption (fun o ↦ .str o.name) d.walker?),
    ("operators", Json.ofList OperatorEntry.toJson d.operators),
    ("edges", Json.ofList EdgeEntry.toJson d.edges),
    ("rules", Json.ofList RuleEntry.toJson d.rules)]

/-- The document that a value describes. -/
def decode? (v : V) : Option Document := do
  let fields ← record? ["config", "walker", "operators", "edges", "rules"] v
  return {
    settings? := ← withDefault fields "config" none (optional? Settings.decode?)
    walker? := ← withDefault fields "walker" none (optional? WalkOrder.decode?)
    operators := ← required fields "operators" (list? OperatorEntry.decode?)
    edges := ← withDefault fields "edges" [] (list? EdgeEntry.decode?)
    rules := ← withDefault fields "rules" [] (list? RuleEntry.decode?) }

end Document

end Dataflow
