import Dataflow.Plan.Basic

/-!
# Walkers

A walker puts the operators of a plan in some order. It only reads the plan, and its answer is a
list of keys, so the plan may change between two walks without either being affected.

There are three built-in orders, in the modules beside this one. Nothing stops other walkers from
listing keys twice or keys that are not in the plan; whoever uses a walker has to reckon with it.
-/

namespace Dataflow

/-- A way to order the operators of a plan, with the name it goes by in reports. -/
structure Walker where
  name : String
  walk : Plan → Except PlanError (List Key)

end Dataflow
