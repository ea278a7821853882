import Dataflow.Plan.Snapshot
import Dataflow.Text.Blank

/-!
# Reports of the optimizer

A report counts, for every rule, how many anchors were tried and what became of them, and keeps the
renderings before and after each recorded rewrite. Reports of successive passes are added up by
`Report.absorb`, row by row: rows go together by the name of their rule.
-/

namespace Dataflow

/-- The counters of one rule. -/
structure RuleReport where
  name : String
  /-- Anchors that were still in the plan when their turn came. -/
  anchors : Nat
  matched : Nat
  /-- Matches that the transformer did not want. -/
  rejected : Nat
  applied : Nat
  deriving DecidableEq, Inhabited, Repr

/-- A recorded rewrite. -/
structure RewriteTrace where
  rule : String
  anchor : Key
  before : String
  after : String
  deriving DecidableEq, Inhabited, Repr

/-- What one or more passes of the optimizer did. -/
structure Report where
  passes : Nat
  rules : List RuleReport
  traces : List RewriteTrace
  deriving DecidableEq, Inhabited, Repr

namespace RuleReport

/-- The counters of two passes together. -/
def add (a b : RuleReport) : RuleReport where
  name := a.name
  anchors := a.anchors + b.anchors
  matched := a.matched + b.matched
  rejected := a.rejected + b.rejected
  applied := a.applied + b.applied

/-- The rows with `row` added to the first of the same name, or at the end if there is none. -/
def addTo (row : RuleReport) : List RuleReport → List RuleReport
  | [] => [row]
  | mine :: rest => if mine.name = row.name then mine.add row :: rest else mine :: addTo row rest

/-- The line for a row. -/
def line (r : RuleReport) : String :=
  s!"  {r.name}: anchors={r.anchors} matched={r.matched} rejected={r.rejected} " ++
    s!"applied={r.applied}\n"

/-- A row as an object. -/
def toJson (r : RuleReport) : Json :=
  .obj [("name", .str r.name), ("anchors", .nat r.anchors), ("matched", .nat r.matched),
    ("rejected", .nat r.rejected), ("applied", .nat r.applied)]

end RuleReport

/-- A counter of at most 64 bits. -/
def counter? {V : Type} [DataTree V] (v : V) : Option Nat :=
  (DataTree.word? v).map UInt64.toNat

/-- The row that a value describes. -/
def RuleReport.decode? {V : Type} [DataTree V] (v : V) : Option RuleReport := do
  let fields ← DataTree.record? ["name", "anchors", "matched", "rejected", "applied"] v
  return {
    name := ← DataTree.required fields "name" DataTree.text?
    anchors := ← DataTree.required fields "anchors" counter?
    matched := ← DataTree.required fields "matched" counter?
    rejected := ← DataTree.required fields "rejected" counter?
    applied := ← DataTree.required fields "applied" counter? }

namespace RewriteTrace

/-- A recorded rewrite as an object. -/
def toJson (t : RewriteTrace) : Json :=
  .obj [("rule", .str t.rule), ("anchor", t.anchor.toJson), ("before", .str t.before),
    ("after", .str t.after)]

/-- The recorded rewrite that a value describes. -/
def decode? {V : Type} [DataTree V] (v : V) : Option RewriteTrace := do
  let fields ← DataTree.record? ["rule", "anchor", "before", "after"] v
  return {
    rule := ← DataTree.required fields "rule" DataTree.text?
    anchor := ← DataTree.required fields "anchor" Key.decode?
    before := ← DataTree.required fields "before" DataTree.text?
    after := ← DataTree.required fields "after" DataTree.text? }

/-- The three lines for a recorded rewrite, which is the one of that number. -/
def lines (number : Nat) (t : RewriteTrace) : String :=
  s!"[{number}] {t.rule} @ {t.anchor}\n" ++
    s!"  before: {Text.trimEnd t.before}\n" ++ s!"  after:  {Text.trimEnd t.after}\n"

end RewriteTrace

namespace Report

/-- A report of no pass at all. -/
instance : EmptyCollection Report :=
  ⟨⟨0, [], []⟩⟩

variable (r : Report)

/-- The number of rewrites. -/
def rewrites : Nat :=
  r.rules.foldr (fun row n ↦ row.applied + n) 0

/-- Whether anything was rewritten. -/
def changed : Bool :=
  0 < r.rewrites

/-- The first row of that name. -/
def rule? (name : String) : Option RuleReport :=
  r.rules.find? (·.name == name)

/-- Both reports together, the other one being of later passes. -/
def absorb (other : Report) : Report where
  passes := r.passes + other.passes
  rules := other.rules.foldl (fun rows row ↦ row.addTo rows) r.rules
  traces := r.traces ++ other.traces

/-- A summary, a line for every rule, and the recorded rewrites, numbered from one. -/
def text : String :=
  s!"passes: {r.passes}, rewrites: {r.rewrites}\n" ++
    String.join (r.rules.map RuleReport.line) ++
    String.join (r.traces.zipIdx.map fun t ↦ t.1.lines (t.2 + 1))

/-- A report as an object. -/
def toJson : Json :=
  .obj [("passes", .nat r.passes), ("rules", Json.ofList RuleReport.toJson r.rules),
    ("traces", Json.ofList RewriteTrace.toJson r.traces)]

/-- The report that a value describes. -/
def decode? {V : Type} [DataTree V] (v : V) : Option Report := do
  let fields ← DataTree.record? ["passes", "rules", "traces"] v
  return {
    passes := ← DataTree.required fields "passes" counter?
    rules := ← DataTree.required fields "rules" (DataTree.list? RuleReport.decode?)
    traces := ← DataTree.required fields "traces" (DataTree.list? RewriteTrace.decode?) }

end Report

end Dataflow
