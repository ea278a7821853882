import Dataflow.Walk.DepthFirst
import Dataflow.Walk.Dependency

/-!
# Choosing a walker by name

Documents and command lines name one of the built-in walkers. A document has to give the name as it
is; elsewhere two shorter names are understood as well.
-/

namespace Dataflow

/-- The built-in walkers. -/
inductive WalkOrder
  | depthFirst
  | dependency
  | reverseDependency
  deriving DecidableEq, Repr

/-- Depth-first order is taken where nothing is said. -/
instance : Inhabited WalkOrder :=
  ⟨.depthFirst⟩

namespace WalkOrder

/-- All built-in walkers. -/
def all : List WalkOrder :=
  [depthFirst, dependency, reverseDependency]

/-- The walker itself. -/
def walker : WalkOrder → Walker
  | depthFirst => .depthFirst
  | dependency => .dependency
  | reverseDependency => .reverseDependency

/-- The name of the walker. -/
def name (o : WalkOrder) : String :=
  o.walker.name

instance : ToString WalkOrder :=
  ⟨name⟩

/-- The walker with exactly this name. -/
def ofName? (s : String) : Option WalkOrder :=
  all.find? fun o ↦ o.name == s

/-- The walker with this name or short name. -/
def parse? (s : String) : Option WalkOrder :=
  if s = "dfs" then some depthFirst
  else if s = "topological" then some dependency
  else ofName? s

/-- The complaint about a name that no walker has. -/
def unknownMessage (s : String) : String :=
  s!"unknown walker '{s}' (expected depth-first, dependency or reverse-dependency)"

theorem mem_all (o : WalkOrder) : o ∈ all := by
  cases o <;> decide

theorem ofName?_name (o : WalkOrder) : ofName? o.name = some o := by
  cases o <;> decide

end WalkOrder

end Dataflow
