import Dataflow.Plan.Basic

/-!
# Editing a plan

Every edit that can be refused validates first and commits second. The two halves are separate
definitions: a check such as `Plan.checkConnect`, which only reads, and a bare change such as
`Plan.link`, which only writes and never asks whether it makes sense. `Plan.commit` joins them, and
so a refused edit hands back the plan it was given. `Plan.replace` alone writes before it has
finished its checks: it takes two lists out, and puts them back if it is refused then.

An edit answers with an `Outcome`, which carries the plan in either case. It therefore says
something also where several edits follow one another and a later one is refused, as in
`Plan.removeEach`.
-/

namespace Dataflow

/-- What an edit leaves behind: its answer or the cause of its refusal, and the plan. -/
structure Outcome (ε α : Type) where
  answer : Except ε α
  plan : Plan

/-- The same outcome, its error read as one of another kind. -/
def Outcome.mapError {ε δ α : Type} (f : ε → δ) (o : Outcome ε α) : Outcome δ α :=
  ⟨o.answer.mapError f, o.plan⟩

namespace Plan

variable {ε α : Type} (p : Plan)

/-- Carries an edit out if `verdict` is in its favour; otherwise nothing changes. -/
def commit (verdict : Except ε α) (edited : α → Plan) : Outcome ε α where
  answer := verdict
  plan := match verdict with
    | .ok a => edited a
    | .error _ => p

/-! ### Operators -/

/-- Puts an operator in, with no edges of its own. -/
def put (op : Operator) : Plan :=
  { p with ops := p.ops.insert op.key op }

/-- Adds an operator without edges. -/
def add (op : Operator) : Outcome PlanError Key :=
  p.commit (if p.contains op.key then .error (.duplicateKey op.key) else .ok op.key) fun _ ↦
    p.put op

/-- Takes `k` out of the plan and every edge that touches it. The two lists kept at `k` tell in
which other lists it occurs. -/
def discard (k : Key) : Plan where
  ops := p.ops.erase k
  succs := Adjacency.updateAll (p.succs.erase k) (p.predecessors k) (·.erase k)
  preds := Table.erase (Adjacency.updateAll p.preds (p.successors k) (·.erase k)) k

/-- Removes an operator and every edge that touches it. -/
def remove (k : Key) : Outcome PlanError Operator :=
  p.commit (p.lookup k) fun _ ↦ p.discard k

/-- Changes the attributes of an operator in place. -/
def modify (k : Key) (f : Operator → Operator) : Plan :=
  { p with ops := p.ops.modify k f }

/-! ### Single edges -/

/-- Appends the edge at both of its ends. -/
def link (source target : Key) : Plan :=
  { p with
    succs := Adjacency.update p.succs source (· ++ [target])
    preds := Adjacency.update p.preds target (· ++ [source]) }

/-- Whether the edge may be added. -/
def checkConnect (source target : Key) : Except PlanError Unit := do
  let s ← p.lookup source
  let t ← p.lookup target
  if source = target then
    throw (.structural (.selfConnection source))
  if p.hasEdge source target then
    throw (.structural (.alreadyConnected source target))
  if !s.multiOutput && p.outDegree source > 0 then
    throw (.arity source s.name .outputs)
  if !t.multiInput && p.inDegree target > 0 then
    throw (.arity target t.name .inputs)

/-- Adds the edge from `source` to `target`. -/
def connect (source target : Key) : Outcome PlanError Unit :=
  p.commit (p.checkConnect source target) fun _ ↦ p.link source target

/-- Takes the edge out at both of its ends. -/
def unlink (source target : Key) : Plan :=
  { p with
    succs := Adjacency.update p.succs source (·.erase target)
    preds := Adjacency.update p.preds target (·.erase source) }

/-- Removes the edge from `source` to `target`, and says whether there was one. -/
def disconnect (source target : Key) : Bool × Plan :=
  if p.hasEdge source target then (true, p.unlink source target) else (false, p)

/-! ### Replacement -/

/-- Takes the two lists kept at `k` out of the plan. -/
def takeLists (k : Key) : Plan :=
  { p with succs := p.succs.erase k, preds := p.preds.erase k }

/-- Gives `k` the operators it feeds and those it is fed by. -/
def giveLists (k : Key) (outs ins : List Key) : Plan :=
  { p with succs := Adjacency.set p.succs k outs, preds := Adjacency.set p.preds k ins }

/-- Puts `new` where `old` was. It takes over the lists of `old`, and the neighbours see it at the
place that `old` held in theirs. -/
def substitute (old : Key) (new : Operator) : Plan :=
  let taken := p.takeLists old
  let renamed : Plan :=
    { ops := (p.ops.erase old).insert new.key new
      succs := Adjacency.updateAll taken.succs (p.predecessors old) (Adjacency.rename old new.key)
      preds := Adjacency.updateAll taken.preds (p.successors old) (Adjacency.rename old new.key) }
  renamed.giveLists new.key (p.successors old) (p.predecessors old)

/-- Whether `old` is there and the key of `new` is free; the answer is the operator that has to
go. -/
def checkReplace (old : Key) (new : Operator) : Except PlanError Operator := do
  let op ← p.lookup old
  if p.contains new.key then
    throw (.duplicateKey new.key)
  return op

/-- Whether `new` may have these edges. -/
def checkInherit (new : Operator) (outs ins : List Key) : Except PlanError Unit := do
  if outs.length > 1 && !new.multiOutput then
    throw (.arity new.key new.name .outputs)
  if ins.length > 1 && !new.multiInput then
    throw (.arity new.key new.name .inputs)

/-- Swaps the operator under `old` for `new`, which inherits all its edges. The lists of `old` are
out of the plan while it is decided whether `new` may have them, and go back if not. -/
def replace (old : Key) (new : Operator) : Outcome PlanError Operator :=
  match p.checkReplace old new with
  | .error e => ⟨.error e, p⟩
  | .ok op =>
    match checkInherit new (p.successors old) (p.predecessors old) with
    | .error e =>
      ⟨.error e, (p.takeLists old).giveLists old (p.successors old) (p.predecessors old)⟩
    | .ok () => ⟨.ok op, p.substitute old new⟩

/-! ### Insertion into an edge -/

/-- Reroutes the edge from `after` to `before` through `between`, which takes the place of `before`
in the successors of `after` and the place of `after` in the predecessors of `before`. -/
def reroute (after between before : Key) : Plan :=
  { p with
    succs := Adjacency.update
      (Adjacency.update p.succs after (Adjacency.rename before between)) between (· ++ [before])
    preds := Adjacency.update
      (Adjacency.update p.preds before (Adjacency.rename after between)) between (· ++ [after]) }

/-- Whether `between` may be inserted into the edge from `after` to `before`. -/
def checkInsertBetween (after between before : Key) : Except PlanError Unit := do
  let _ ← p.lookup after
  let b ← p.lookup between
  let _ ← p.lookup before
  if !p.hasEdge after before then
    throw (.structural (.notConnected after before))
  if between = after || between = before then
    throw (.structural (.insertedBesideItself between))
  if !b.multiInput && p.inDegree between > 0 then
    throw (.structural (.insertedTwice b.name between .inputs))
  if !b.multiOutput && p.outDegree between > 0 then
    throw (.structural (.insertedTwice b.name between .outputs))
  if p.hasEdge after between || p.hasEdge between before then
    throw (.structural (.insertionDuplicates between after before))

/-- Splices `between` into the existing edge from `after` to `before`. -/
def insertBetween (after between before : Key) : Outcome PlanError Unit :=
  p.commit (p.checkInsertBetween after between before) fun _ ↦ p.reroute after between before

/-! ### Removal with reconnection -/

/-- Takes `k` out and closes the gap: its first predecessor feeds the successors of `k` at the
place where it fed `k`, and each successor sees that predecessor where it saw `k`. Without a
predecessor the successors only lose `k`. -/
def bypass (k : Key) : Plan :=
  match p.predecessors k with
  | [] =>
    { ops := p.ops.erase k
      succs := p.succs.erase k
      preds := Adjacency.updateAll (p.preds.erase k) (p.successors k) (·.erase k) }
  | before :: _ =>
    { ops := p.ops.erase k
      succs := Adjacency.update (p.succs.erase k) before (Adjacency.replaceFirst k (p.successors k))
      preds :=
        Adjacency.updateAll (p.preds.erase k) (p.successors k) (Adjacency.rename k before) }

/-- Whether `k` can be removed and the gap closed. -/
def checkBypass (k : Key) : Except PlanError Unit := do
  let _ ← p.lookup k
  if p.inDegree k > 1 then
    throw (.structural (.severalPredecessors k (p.inDegree k)))
  match p.predecessors k with
  | [] => return
  | before :: _ =>
    if (p.successors k).contains before then
      throw (.structural (.bypassLoops k before))
    let op ← p.lookup before
    if p.outDegree before - 1 + p.outDegree k > 1 && !op.multiOutput then
      throw (.arity before op.name .outputs)
    match (p.successors k).find? (p.hasEdge before) with
    | some s => throw (.structural (.bypassDuplicates before s))
    | none => return

/-- Removes an operator and connects its predecessor to each of its successors. -/
def removeAndReconnect (k : Key) : Outcome PlanError Operator :=
  p.commit (do p.checkBypass k; p.lookup k) fun _ ↦ p.bypass k

/-! ### Several operators at once -/

/-- The first operator of `q` whose key is taken. -/
def checkMerge (q : Plan) : Except PlanError Unit :=
  match q.keys.find? p.contains with
  | some k => .error (.duplicateKey k)
  | none => .ok ()

/-- The operators and edges of both plans. -/
def union (q : Plan) : Plan where
  ops := p.ops.union q.ops
  succs := p.succs.union q.succs
  preds := p.preds.union q.preds

/-- Moves every operator and edge of `q` into the plan. -/
def merge (q : Plan) : Outcome PlanError Unit :=
  p.commit (p.checkMerge q) fun _ ↦ p.union q

/-- Removes the operators under `ks` one after the other, up to the first that is missing. The
answer lists them in that order. -/
def removeEach (p : Plan) : List Key → Outcome PlanError (List Operator)
  | [] => ⟨.ok [], p⟩
  | k :: ks =>
    match p.remove k with
    | ⟨.error e, q⟩ => ⟨.error e, q⟩
    | ⟨.ok op, q⟩ =>
      let rest := removeEach q ks
      ⟨rest.answer.map (op :: ·), rest.plan⟩

/-- Removes everything in `doomed` except `k`, in key order, provided that `k` is in the plan. -/
def trim (k : Key) (doomed : List Key) : Outcome PlanError (List Operator) :=
  match p.lookup k with
  | .error e => ⟨.error e, p⟩
  | .ok _ => p.removeEach (Key.sort (doomed.filter (· ≠ k)))

/-- Removes every operator that can be reached from `k`, but not `k`. -/
def trimBelow (k : Key) : Outcome PlanError (List Operator) :=
  p.trim k (p.below k)

/-- Removes every operator that can reach `k`, but not `k`. -/
def trimAbove (k : Key) : Outcome PlanError (List Operator) :=
  p.trim k (p.above k)

end Plan

end Dataflow
