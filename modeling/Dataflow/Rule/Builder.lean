import Dataflow.Rule.Basic

/-!
# Building rules step by step

A builder gathers the parts of a rule one call at a time. Nothing is checked until the rule is
asked for.
-/

namespace Dataflow

/-- The parts of a rule gathered so far. -/
structure Rule.Builder where
  name : String
  nodes : List Pattern
  edges : List (Nat × Nat)
  required : List Bool
  deriving DecidableEq

namespace Rule.Builder

/-- A builder without any parts. -/
def named (name : String) : Builder :=
  ⟨name, [], [], []⟩

/-- Appends a position at which an operator has to be. -/
def node (b : Builder) (p : Pattern) : Builder :=
  { b with nodes := b.nodes ++ [p], required := b.required ++ [true] }

/-- Appends a position that may stay empty. -/
def optional (b : Builder) (p : Pattern) : Builder :=
  { b with nodes := b.nodes ++ [p], required := b.required ++ [false] }

/-- Appends a position at which some operator has to be. -/
def any (b : Builder) : Builder :=
  b.node .any

/-- Appends an edge. -/
def edge (b : Builder) (source target : Nat) : Builder :=
  { b with edges := b.edges ++ [(source, target)] }

/-- Appends an edge unless it is there. -/
def edgeOnce (b : Builder) (source target : Nat) : Builder :=
  if b.edges.any fun e ↦ e.1 == source && e.2 == target then b else b.edge source target

/-- Connects every position to the next one. -/
def chain (b : Builder) : Builder :=
  (List.range (b.nodes.length - 1)).foldl (fun b i ↦ b.edgeOnce i (i + 1)) b

/-- The rule made of the parts. -/
def build (b : Builder) : Except RuleError Rule :=
  Rule.ofParts b.name b.nodes b.edges b.required

end Rule.Builder

end Dataflow
