import Dataflow.Document.Codec
import Dataflow.Yaml.Expansion

/-!
# Documents as text

Plan documents are written in YAML. Before a document is decoded, it is made sure that no more
aliases have to be followed for it than are allowed.
-/

namespace Dataflow

open Yaml (Shape Value)

/-- What is looked at in the settings. -/
def Settings.shape : Shape :=
  .record [("max_passes", .scalar), ("trace_rewrites", .scalar)]

/-- What is looked at in an operator. -/
def OperatorEntry.shape : Shape :=
  .record [("name", .scalar), ("kind", .scalar), ("multi_input", .scalar),
    ("multi_output", .scalar)]

/-- What is looked at in an edge. -/
def EdgeEntry.shape : Shape :=
  .record [("from", .scalar), ("to", .scalar)]

/-- What is looked at in a rule. -/
def RuleEntry.shape : Shape :=
  .record [("name", .scalar), ("nodes", .list .scalar), ("edges", .list (.list .scalar)),
    ("optional", .list .scalar), ("action", .whole), ("walker", .scalar)]

namespace Document

/-- What is looked at in a document. -/
def shape : Shape :=
  .record [("config", Settings.shape), ("walker", .scalar),
    ("operators", .list OperatorEntry.shape), ("edges", .list EdgeEntry.shape),
    ("rules", .list RuleEntry.shape)]

/-- The document that a YAML text describes. -/
def ofYaml? (text : String) : Option Document := do
  let v ← Value.parse? text
  if v.isCompact shape then decode? v else none

end Document

end Dataflow
