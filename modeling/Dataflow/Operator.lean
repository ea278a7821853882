import Dataflow.Key

/-!
# Operators

An operator is a node of a plan: a key, a name for people, a kind, and two flags that say whether
several edges may enter it and whether several may leave it. The kind sets the flags an operator
starts with (`Operator.ofKind`); afterwards they are its own.
-/

namespace Dataflow

/-- What an operator does with the data that passes through it. -/
inductive Kind
  | source
  | transform
  | split
  | union
  | sink
  deriving DecidableEq, Inhabited, Repr

namespace Kind

/-- All kinds. -/
def all : List Kind :=
  [source, transform, split, union, sink]

/-- The name of a kind in documents. -/
def name : Kind → String
  | source => "source"
  | transform => "transform"
  | split => "split"
  | union => "union"
  | sink => "sink"

/-- The name of a kind in listings of a plan. -/
def title : Kind → String
  | source => "Source"
  | transform => "Transform"
  | split => "Split"
  | union => "Union"
  | sink => "Sink"

/-- The kind with exactly this name. -/
def ofName? (s : String) : Option Kind :=
  all.find? fun k ↦ k.name == s

/-- The kind with this name, in capital or small ASCII letters. -/
def parse? (s : String) : Option Kind :=
  ofName? s.toLower

/-- Only unions take several inputs unless told otherwise. -/
def multiInput : Kind → Bool
  | union => true
  | _ => false

/-- Only splits feed several outputs unless told otherwise. -/
def multiOutput : Kind → Bool
  | split => true
  | _ => false

theorem mem_all (k : Kind) : k ∈ all := by
  cases k <;> decide

theorem ofName?_name (k : Kind) : ofName? k.name = some k := by
  cases k <;> decide

end Kind

/-- The two ends at which edges meet an operator. -/
inductive Direction
  | inputs
  | outputs
  deriving DecidableEq, Inhabited, Repr

/-- The word for a direction in messages. -/
def Direction.word : Direction → String
  | inputs => "inputs"
  | outputs => "outputs"

instance : ToString Direction :=
  ⟨Direction.word⟩

/-- A node of a plan. -/
structure Operator where
  key : Key
  name : String
  kind : Kind
  /-- Whether more than one edge may enter. -/
  multiInput : Bool
  /-- Whether more than one edge may leave. -/
  multiOutput : Bool
  deriving DecidableEq, Inhabited, Repr

namespace Operator

/-- An operator with the arity that its kind has, except where a flag is given. -/
def ofKind (key : Key) (name : String) (kind : Kind) (multiInput? multiOutput? : Option Bool) :
    Operator where
  key
  name
  kind
  multiInput := multiInput?.getD kind.multiInput
  multiOutput := multiOutput?.getD kind.multiOutput

/-- Whether `op` may have more than one edge in the given direction. -/
def allowsMany (op : Operator) : Direction → Bool
  | .inputs => op.multiInput
  | .outputs => op.multiOutput

end Operator

end Dataflow
