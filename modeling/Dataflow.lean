import Dataflow.Json.Parser
import Dataflow.Json.Tree
import Dataflow.Main
import Dataflow.Rule.Builder
import Dataflow.Walk.Verify
import Dataflow.Proofs.Atomicity
import Dataflow.Proofs.Matching
import Dataflow.Proofs.Convergence
import Dataflow.Proofs.Reliability
import Dataflow.Proofs.Preorder
import Dataflow.Proofs.Tallies
import Dataflow.Proofs.Freshness
import Dataflow.Proofs.Acceptance
import Dataflow.Proofs.Iteration
import Dataflow.Proofs.Chronicles
import Dataflow.Proofs.Conservation
import Dataflow.Proofs.JsonText
import Dataflow.Proofs.Snapshots
import Dataflow.Proofs.OrderChecks
import Dataflow.Proofs.ReadBack
import Dataflow.Proofs.SearchOrders
import Dataflow.Proofs.Inverses
import Dataflow.Proofs.Renaming
import Dataflow.Proofs.Connections
import Dataflow.Proofs.Merging
import Dataflow.Proofs.Embeddings
import Dataflow.Proofs.Inspection
import Dataflow.Proofs.Tracing
import Dataflow.Proofs.Levels
import Dataflow.Proofs.Locality
import Dataflow.Proofs.Violations
import Dataflow.Proofs.Ends
import Dataflow.Proofs.Likeness
import Dataflow.Proofs.Chaining
import Dataflow.Proofs.Rounds
import Dataflow.Proofs.DisplayedKeys
