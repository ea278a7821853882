import Dataflow.Command.Basic
import Dataflow.Document.Build
import Dataflow.Document.Text
import Dataflow.Json.Printer
import Dataflow.Plan.Invariants
import Dataflow.Walk.Visit

/-!
# Running a command

`Command.run` is what a command answers, given what was found under the name of its file and the
settings that apply where neither the document nor the command line says otherwise. It reads no
file and prints nothing: its answer is the text to be printed, or the first thing that went wrong.
-/

namespace Dataflow

/-- Why a file could not be read. -/
inductive FileError
  | notFound
  /-- There is a directory under the name. -/
  | directory
  /-- A part of the name that should be a directory is a file. -/
  | notDirectory
  /-- The name, or a part of it, is longer than any name of a file. -/
  | nameTooLong
  /-- The contents are not text. -/
  | notText
  | other (reason : String)
  deriving DecidableEq, Repr

/-- The wording of an error. -/
def FileError.message : FileError → String
  | notFound => "No such file or directory (os error 2)"
  | directory => "Is a directory (os error 21)"
  | notDirectory => "Not a directory (os error 20)"
  | nameTooLong => "File name too long (os error 36)"
  | notText => "stream did not contain valid UTF-8"
  | other reason => reason

/-- What can go wrong in a command. -/
inductive CommandError
  | file (e : FileError)
  /-- The text of the file does not describe a document. -/
  | notDocument
  | document (e : DocumentError)
  | plan (e : PlanError)
  | optimizer (e : OptimizerError)
  deriving DecidableEq, Repr

/-- The wording of an error. -/
def CommandError.message : CommandError → String
  | file e => e.message
  | notDocument => "the file does not contain a plan document"
  | document e => e.message
  | plan e => e.message
  | optimizer e => e.message

namespace BuiltDocument

variable (b : BuiltDocument)

/-- **Validation.** The plan keeps its invariants and can be put in dependency order. -/
def validate : Except PlanError Unit := do
  b.plan.checkInvariants
  discard (Walker.dependency.walk b.plan)

/-- How much there is in a document. -/
def summary : String :=
  s!"{b.plan.size} operators, {b.plan.edgeCount} edges, {b.rules.length} rules"

/-- The plan for a reader: a line for each operator in the order of a walker, then some figures. -/
def explainText (order : WalkOrder) : Except PlanError String := do
  let p := b.plan
  let (answer, lines) := p.visit order.walker .printer []
  answer
  let listed (ks : List Key) : String := ", ".intercalate (p.names ks)
  return textOfLines <|
    [s!"Plan ({order} order)", "======================"] ++ lines ++
    ["", s!"Operators: {p.size}", s!"Edges: {p.edgeCount}", s!"Roots: {listed p.roots}",
      s!"Leaves: {listed p.leaves}", s!"Fingerprint: {p.fingerprint}"]

/-- The plan for a program: the names in the order of a walker, the digest and the structure. -/
def explainJson (order : WalkOrder) : Except PlanError Json := do
  let p := b.plan
  let keys ← order.walker.walk p
  return .obj [("walker", .str order.name), ("order", Json.ofList .str (p.names keys)),
    ("fingerprint", .str p.fingerprint), ("snapshot", p.snapshot.toJson)]

end BuiltDocument

namespace Job

/-- The settings with the changes that the command line asks for. -/
def overrides (maxPasses? : Option UInt64) (trace : Bool) (c : Config) : Config where
  maxPasses := maxPasses?.getD c.maxPasses
  traceRewrites := trace || c.traceRewrites

/-- What a job prints for a document. -/
def run (b : BuiltDocument) : Job → Except CommandError String
  | validate => do
    b.validate.mapError .plan
    return s!"✓ Plan is valid ({b.summary})\n"
  | explain walker? json => do
    let order := walker?.getD b.walker
    if json then
      let v ← (b.explainJson order).mapError .plan
      return v.pretty ++ "\n"
    else (b.explainText order).mapError .plan
  | optimize maxPasses? trace => do
    let config := overrides maxPasses? trace b.config
    let run := { b with config }.toOptimizer.optimizeUntilStable
    let report ← run.answer.mapError .optimizer
    return s!"✓ Optimized\n{report.text}Result: {run.optimizer.plan.render}\n"

/-- What stands before an error that ends the job. -/
def complaint : Job → String
  | validate => "Validation failed"
  | explain .. | optimize .. => "Error"

end Job

namespace Command

/-- What a command prints for a file with the given contents. -/
def run (c : Command) (contents : Except FileError String) (base : Config) :
    Except CommandError String := do
  let text ← contents.mapError .file
  let document ← match Document.ofYaml? text with
    | some d => .ok d
    | none => .error .notDocument
  let built ← (document.build base).mapError .document
  c.job.run built

/-- The line that tells of an error. -/
def errorLine (c : Command) (e : CommandError) : String :=
  s!"{c.job.complaint}: {e.message}\n"

end Command

end Dataflow
