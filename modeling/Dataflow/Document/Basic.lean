import Dataflow.Optimizer.Config
import Dataflow.Walk.Choice

/-!
# Plan documents

A document describes a plan and the rules to rewrite it by, in terms that need no code. Operators
are known by name, edges by the names at their ends, patterns by the names of kinds, and the rewrite
of a rule is one of a few actions on one of its positions.

The types here say what a document may contain. Whether it makes sense is decided when it is built.
-/

namespace Dataflow

/-- Settings that a document may change. -/
structure Settings where
  maxPasses? : Option UInt64
  traceRewrites? : Option Bool
  deriving DecidableEq, Inhabited, Repr

/-- The settings of `base`, except for those that are given. -/
def Settings.apply (s : Settings) (base : Config) : Config where
  maxPasses := s.maxPasses?.getD base.maxPasses
  traceRewrites := s.traceRewrites?.getD base.traceRewrites

/-- An operator in a document. -/
structure OperatorEntry where
  name : String
  kind : Kind
  multiInput? : Option Bool
  multiOutput? : Option Bool
  deriving DecidableEq, Inhabited, Repr

/-- An edge in a document, by the names of its ends. -/
structure EdgeEntry where
  source : String
  target : String
  deriving DecidableEq, Inhabited, Repr

/-- What a rule of a document does where it is found. -/
inductive Action
  /-- Matches are counted and nothing else. -/
  | none
  /-- The operator at the position is removed and the gap closed. -/
  | remove (position : UInt64)
  /-- Everything below the operator at the position is removed. -/
  | trimBelow (position : UInt64)
  deriving DecidableEq, Inhabited, Repr

/-- The position that an action is about. -/
def Action.position? : Action → Option UInt64
  | .none => .none
  | .remove position | .trimBelow position => some position

/-- A rule in a document. -/
structure RuleEntry where
  name : String
  /-- For every position the name of a kind, or `any`. -/
  nodes : List String
  edges : List (UInt64 × UInt64)
  /-- Positions that may stay empty. -/
  optional : List UInt64
  action : Action
  walker? : Option WalkOrder
  deriving DecidableEq, Inhabited, Repr

/-- The contents of a document. -/
structure Document where
  settings? : Option Settings
  /-- The walker of the rules that do not name one. -/
  walker? : Option WalkOrder
  operators : List OperatorEntry
  edges : List EdgeEntry
  rules : List RuleEntry
  deriving DecidableEq, Inhabited, Repr

end Dataflow
