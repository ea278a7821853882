import Dataflow.Data.Tree
import Dataflow.Json.Basic
import Dataflow.Text.Blank

/-!
# Settings of the optimizer

Two settings: how many passes may be made, and whether rewrites are recorded. They can be given as
data, where a setting that is left out has its default, or by two environment variables, where a
text that makes no sense is passed over.
-/

namespace Dataflow

/-- Settings of the optimizer. -/
structure Config where
  /-- The most passes that are made in search of a plan that no longer changes. -/
  maxPasses : UInt64
  /-- Whether the plan is written down before and after every rewrite. -/
  traceRewrites : Bool
  deriving DecidableEq, Repr

/-- Sixteen passes, nothing recorded. -/
instance : Inhabited Config :=
  ⟨⟨16, false⟩⟩

/-- A natural number of at most 64 bits in decimal digits, possibly after a plus sign. -/
def word64OfText? (s : String) : Option UInt64 :=
  let digits := match s.toList with
    | '+' :: rest => rest
    | cs => cs
  if digits.isEmpty || !digits.all Char.isDigit then none
  else
    let n : Nat := digits.foldl (fun n d ↦ 10 * n + (d.toNat - 48)) 0
    if n < UInt64.size then some n.toUInt64 else none

/-- A truth value in one of its usual spellings, blanks around it allowed. -/
def flagOfText? (s : String) : Option Bool :=
  let word := (Text.trim s).toLower
  if word ∈ ["1", "true", "yes", "on"] then some true
  else if word ∈ ["0", "false", "no", "off"] then some false
  else none

namespace Config

/-- The settings with a different number of passes. -/
def withMaxPasses (c : Config) (n : UInt64) : Config :=
  { c with maxPasses := n }

/-- The settings with recording on or off. -/
def withTrace (c : Config) (b : Bool) : Config :=
  { c with traceRewrites := b }

/-- The name of the environment variable for the number of passes. -/
def maxPassesVariable : String :=
  "PLANGRAPH_MAX_PASSES"

/-- The name of the environment variable for recording. -/
def traceRewritesVariable : String :=
  "PLANGRAPH_TRACE_REWRITES"

/-- The settings that environment variables ask for. -/
def ofEnvironment (value? : String → Option String) : Config :=
  let c : Config := default
  let c := match (value? maxPassesVariable).bind word64OfText? with
    | some n => c.withMaxPasses n
    | none => c
  match (value? traceRewritesVariable).bind flagOfText? with
  | some b => c.withTrace b
  | none => c

/-- Settings as an object. -/
def toJson (c : Config) : Json :=
  .obj [("max_passes", .nat c.maxPasses.toNat), ("trace_rewrites", .bool c.traceRewrites)]

/-- The settings that a value describes. -/
def decode? {V : Type} [DataTree V] (v : V) : Option Config := do
  let fields ← DataTree.record? ["max_passes", "trace_rewrites"] v
  return {
    maxPasses := ← DataTree.withDefault fields "max_passes" (default : Config).maxPasses
      DataTree.word?
    traceRewrites := ← DataTree.withDefault fields "trace_rewrites"
      (default : Config).traceRewrites DataTree.flag? }

end Config

end Dataflow
