import Dataflow.Data.Tree
import Dataflow.Digest
import Dataflow.Json.Printer
import Dataflow.Plan.Basic

/-!
# Renderings, snapshots and fingerprints

Three ways to write a plan down. `Plan.render` is a line of text with the names of all operators and
then all edges, once along them and once against them; every item is followed by one blank, groups
go by key, and inside a group the far ends are sorted by key, so the order in which edges were added
does not show. `Plan.snapshot` keeps keys, names and the successor lists as they are. A fingerprint
is the digest of the compact JSON text of the snapshot.
-/

namespace Dataflow

/-! ### Keys as data -/

namespace Key

/-- A key as an object of scope and number. -/
def toJson (k : Key) : Json :=
  .obj [("scope", .str k.scope), ("id", .nat k.id.toNat)]

/-- The key that a value describes. -/
def decode? {V : Type} [DataTree V] (v : V) : Option Key := do
  let fields ← DataTree.record? ["scope", "id"] v
  return {
    scope := ← DataTree.required fields "scope" DataTree.text?
    id := ← DataTree.required fields "id" DataTree.word? }

end Key

/-- A supply as an object of its scope and the number that is next. -/
def KeySupply.toJson (s : KeySupply) : Json :=
  .obj [("scope", .str s.scope), ("next", .nat s.next.toNat)]

/-! ### Snapshots -/

/-- An operator as a snapshot shows it. -/
structure NodeEntry where
  key : Key
  name : String
  deriving DecidableEq, Inhabited, Repr

namespace NodeEntry

/-- An entry as an object. -/
def toJson (e : NodeEntry) : Json :=
  .obj [("key", e.key.toJson), ("name", .str e.name)]

/-- The entry that a value describes. -/
def decode? {V : Type} [DataTree V] (v : V) : Option NodeEntry := do
  let fields ← DataTree.record? ["key", "name"] v
  return {
    key := ← DataTree.required fields "key" Key.decode?
    name := ← DataTree.required fields "name" DataTree.text? }

end NodeEntry

/-- The structure of a plan: its operators in key order, and its edges grouped by source. -/
structure Snapshot where
  nodes : List NodeEntry
  edges : List (Key × Key)
  deriving DecidableEq, Inhabited, Repr

namespace Snapshot

instance : EmptyCollection Snapshot :=
  ⟨⟨[], []⟩⟩

/-- An edge as an array of its two ends. -/
def edgeToJson (e : Key × Key) : Json :=
  .arr [e.1.toJson, e.2.toJson]

/-- A snapshot as an object. -/
def toJson (s : Snapshot) : Json :=
  .obj [("nodes", Json.ofList NodeEntry.toJson s.nodes), ("edges", Json.ofList edgeToJson s.edges)]

/-- The snapshot that a value describes. -/
def decode? {V : Type} [DataTree V] (v : V) : Option Snapshot := do
  let fields ← DataTree.record? ["nodes", "edges"] v
  return {
    nodes := ← DataTree.required fields "nodes" (DataTree.list? NodeEntry.decode?)
    edges := ← DataTree.required fields "edges"
      (DataTree.list? (DataTree.pair? Key.decode? Key.decode?)) }

end Snapshot

namespace Plan

variable (p : Plan)

/-- The structure of the plan, without the attributes of its operators. -/
def snapshot : Snapshot where
  nodes := p.operators.map fun op ↦ ⟨op.key, op.name⟩
  edges := p.edges

/-- The digest of the snapshot, in hexadecimal. -/
def fingerprint : String :=
  Digest.ofText p.snapshot.toJson.compact

/-! ### Rendering -/

/-- One item of a rendering. -/
def renderEdge (nearEnd farEnd : Key) : String :=
  s!"{p.nameOf nearEnd}->{p.nameOf farEnd} "

/-- The edges in one direction, each from the operator whose list it stands in. -/
def renderEdges (direction : Direction) : String :=
  String.join (p.keys.flatMap fun k ↦
    (Key.sort (Adjacency.neighbours (p.edgesTowards direction) k)).map (p.renderEdge k))

/-- Names, then edges along their direction, then edges against it. -/
def render : String :=
  "Nodes: " ++ String.join (p.operators.map (·.name ++ " ")) ++
    "FromEdges: " ++ p.renderEdges .outputs ++ "ToEdges: " ++ p.renderEdges .inputs

end Plan

end Dataflow
