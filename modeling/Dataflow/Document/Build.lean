import Dataflow.Document.Rewrite

/-!
# Building a document

`Document.build` turns a document into a plan and rules, or says what is wrong with it. Operators
are taken in the order of the document and get the keys of the scope `doc` in that order; then come
the edges, each of them by `Plan.connect`, then the rules, and the first fault ends the matter.
-/

namespace Dataflow

/-- What is wrong with a document. -/
inductive DocumentError
  | duplicateName (name : String)
  | unknownOperator (name : String)
  /-- The text, in small letters, stands where the name of a kind or `any` is expected. -/
  | unknownKind (rule text : String)
  /-- A position that may stay empty does not exist. -/
  | optionalMissing (rule : String) (position : UInt64)
  /-- The position that an action is about does not exist. -/
  | actionMissing (rule : String) (position : UInt64)
  | plan (e : PlanError)
  | rule (e : RuleError)
  deriving DecidableEq, Repr

/-- The wording of an error. -/
def DocumentError.message : DocumentError → String
  | duplicateName name => s!"operator name '{name}' is used twice"
  | unknownOperator name => s!"edge refers to unknown operator '{name}'"
  | unknownKind owner text =>
    s!"rule '{owner}': unknown node kind '{text}' " ++
      "(expected any, source, transform, split, union or sink)"
  | optionalMissing owner position =>
    s!"rule '{owner}': optional position {position} does not exist"
  | actionMissing owner position => s!"rule '{owner}': action position {position} does not exist"
  | plan e => e.message
  | rule e => e.message

/-- A rule of a document, ready for use. -/
structure BuiltRule where
  rule : Rule
  action : Action
  walker : WalkOrder
  deriving DecidableEq

/-- A document, ready for use. -/
structure BuiltDocument where
  plan : Plan
  rules : List BuiltRule
  config : Config
  walker : WalkOrder
  deriving DecidableEq

/-- The operator with the given key. -/
def OperatorEntry.operator (o : OperatorEntry) (key : Key) : Operator :=
  .ofKind key o.name o.kind o.multiInput? o.multiOutput?

/-- The keys of the operators declared so far, by name. -/
abbrev NameTable :=
  List (String × Key)

namespace Document

/-- Adds operators one after the other, with keys from `supply`. -/
def addOperators : List OperatorEntry → KeySupply → NameTable → Plan →
    Except DocumentError (NameTable × Plan)
  | [], _, names, p => .ok (names, p)
  | o :: rest, supply, names, p =>
    if (names.lookup o.name).isSome then .error (.duplicateName o.name)
    else
      let (key, supply) := supply.take
      match p.add (o.operator key) with
      | ⟨.error e, _⟩ => .error (.plan e)
      | ⟨.ok _, p⟩ => addOperators rest supply ((o.name, key) :: names) p

/-- The key of the operator with that name. -/
def resolveName (names : NameTable) (name : String) : Except DocumentError Key :=
  match names.lookup name with
  | some k => .ok k
  | none => .error (.unknownOperator name)

/-- Adds edges one after the other. -/
def addEdges (names : NameTable) : List EdgeEntry → Plan → Except DocumentError Plan
  | [], p => .ok p
  | e :: rest, p => do
    let source ← resolveName names e.source
    let target ← resolveName names e.target
    match p.connect source target with
    | ⟨.error e, _⟩ => .error (.plan e)
    | ⟨.ok _, p⟩ => addEdges names rest p

/-- The constraint that a node of a rule stands for. -/
def resolvePattern (rule text : String) : Except DocumentError Pattern :=
  match Pattern.parse? text with
  | some p => .ok p
  | none => .error (.unknownKind rule text.toLower)

/-- A rule of the document; `order` is its walker if it does not name one. -/
def buildRule (order : WalkOrder) (r : RuleEntry) : Except DocumentError BuiltRule := do
  let nodes ← r.nodes.mapM (resolvePattern r.name)
  if let some position := r.optional.find? fun n ↦ nodes.length ≤ n.toNat then
    throw (.optionalMissing r.name position)
  if let some position := r.action.position? then
    if nodes.length ≤ position.toNat then
      throw (.actionMissing r.name position)
  let edges := r.edges.map fun e ↦ (e.1.toNat, e.2.toNat)
  let required := (List.range nodes.length).map fun j ↦ !(r.optional.map UInt64.toNat).contains j
  let rule ← (Rule.ofParts r.name nodes edges required).mapError DocumentError.rule
  return ⟨rule, r.action, r.walker?.getD order⟩

/-- The plan and the rules of the document; `base` are the settings it may change. -/
def build (d : Document) (base : Config) : Except DocumentError BuiltDocument := do
  let (names, p) ← addOperators d.operators (.ofScope "doc") [] ∅
  let p ← addEdges names d.edges p
  let walker := d.walker?.getD default
  let rules ← d.rules.mapM (buildRule walker)
  let config := match d.settings? with
    | some settings => settings.apply base
    | none => base
  return { plan := p, rules, config, walker }

end Document

namespace BuiltDocument

/-- The entry of a rule in an optimizer. -/
def entry (r : BuiltRule) : Entry Unit where
  rule := r.rule
  transformer := r.action.transformer Unit r.rule.name r.walker
  state := ()

/-- An optimizer for the plan with all rules registered in order. -/
def toOptimizer (b : BuiltDocument) : Optimizer Unit where
  plan := b.plan
  entries := b.rules.map entry
  config := b.config

end BuiltDocument

end Dataflow
