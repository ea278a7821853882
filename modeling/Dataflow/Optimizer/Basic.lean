import Dataflow.Optimizer.Config
import Dataflow.Optimizer.Report
import Dataflow.Plan.Edit
import Dataflow.Rule.Match

/-!
# The optimizer

An optimizer has a plan and a list of rules, each with a transformer that says what to do where the
rule is found. One pass takes the rules in the order of their registration. For each of them the
transformer's walker lists the anchors of the plan as it stands, and at every anchor that is still
there the rule is matched against the plan as it has become by then.

What happens at an anchor is an `Attempt`, and the attempts of a pass, rule by rule, make up its
journal. The counters are kept as the anchors are tried, and if the settings ask for it, each
rewrite is recorded with renderings of the plan before and after it.

A transformer may keep a state of its own. All transformers of one optimizer have states of one
type.
-/

namespace Dataflow

/-- Why a pass came to an early end. -/
inductive OptimizerError
  | plan (e : PlanError)
  /-- A transformer gave up. -/
  | transform (rule reason : String)
  deriving DecidableEq, Repr

/-- The wording of an error. -/
def OptimizerError.message : OptimizerError → String
  | plan e => e.message
  | transform rule reason => s!"transform failed in rule '{rule}': {reason}"

/-- What to do where a rule is found. -/
structure Transformer (σ : Type) where
  /-- The order in which anchors are tried. -/
  walker : σ → Walker
  /-- Whether a match is wanted. -/
  check : σ → Plan → Match → Bool
  /-- Rewrites the plan for a match that is wanted. The plan may have changed even on failure. -/
  transform : σ → Plan → Match → Outcome OptimizerError Unit × σ

/-- A rule together with its transformer and the transformer's present state. -/
structure Entry (σ : Type) where
  rule : Rule
  transformer : Transformer σ
  state : σ

/-- What became of an anchor. -/
inductive Attempt
  /-- It is no longer in the plan. -/
  | gone (anchor : Key)
  /-- The rule does not match there. -/
  | unmatched (anchor : Key)
  /-- The match was not wanted in the plan as it stood. -/
  | rejected (found : Match) (plan : Plan)
  /-- The plan was rewritten. -/
  | applied (found : Match) (before after : Plan)
  /-- The transformer gave up and left the plan as it is in `after`. -/
  | failed (found : Match) (before after : Plan)
  deriving DecidableEq

/-- For every rule that was taken up, its name and the attempts that were made. -/
abbrev Journal :=
  List (String × List Attempt)

namespace Attempt

/-- The match, if there was one. -/
def found? : Attempt → Option Match
  | gone _ | unmatched _ => none
  | rejected m _ | applied m _ _ | failed m _ _ => some m

/-- What the transformer said to the match, if there was one. -/
def verdict? : Attempt → Option Bool
  | gone _ | unmatched _ => none
  | rejected .. => some false
  | applied .. | failed .. => some true

end Attempt

/-! ### Notes -/

/-- What is noted down while a rule is taken up: its counters, and the rewrites that have been
recorded so far, those of the rules before it included. -/
structure Notes where
  row : RuleReport
  traces : List RewriteTrace

namespace Notes

/-- Notes on a rule that has not been tried anywhere. -/
def blank (name : String) (traces : List RewriteTrace) : Notes :=
  ⟨⟨name, 0, 0, 0, 0⟩, traces⟩

variable (n : Notes)

/-- One more anchor is in the plan. -/
def countAnchor : Notes :=
  { n with row := { n.row with anchors := n.row.anchors + 1 } }

/-- The rule matches. -/
def countMatch : Notes :=
  { n with row := { n.row with matched := n.row.matched + 1 } }

/-- The match is not wanted. -/
def countRejected : Notes :=
  { n with row := { n.row with rejected := n.row.rejected + 1 } }

/-- The plan has been rewritten, of which there may be a record. -/
def countApplied (record? : Option RewriteTrace) : Notes where
  row := { n.row with applied := n.row.applied + 1 }
  traces := n.traces ++ record?.toList

end Notes

/-! ### One rule -/

/-- What comes of a rule that is taken up: the attempts, the notes, the entry and the plan
afterwards, and the failure if there is one. -/
structure RuleRun (σ : Type) where
  attempts : List Attempt
  notes : Notes
  entry : Entry σ
  plan : Plan
  failure : Option OptimizerError

/-- The same after one more attempt, which came first. -/
def RuleRun.cons {σ : Type} (a : Attempt) (run : RuleRun σ) : RuleRun σ :=
  { run with attempts := a :: run.attempts }

/-- What comes of rules that are taken up one after the other: the journal, the counters of each
rule, the recorded rewrites, the entries and the plan afterwards, and the failure if there is
one. -/
structure Pass (σ : Type) where
  journal : Journal
  rows : List RuleReport
  traces : List RewriteTrace
  entries : List (Entry σ)
  plan : Plan
  failure : Option OptimizerError

/-- The same after one more rule, of that name, which came first. -/
def Pass.cons {σ : Type} (name : String) (run : RuleRun σ) (pass : Pass σ) : Pass σ :=
  { pass with
    journal := (name, run.attempts) :: pass.journal
    rows := run.notes.row :: pass.rows
    entries := run.entry :: pass.entries }

namespace Entry

variable {σ : Type}

/-- The anchors that remain of one rule, tried in turn until one fails. The plan is rendered only if
rewrites are to be recorded. -/
def tryAnchors (trace : Bool) (e : Entry σ) (p : Plan) (notes : Notes) : List Key → RuleRun σ
  | [] => ⟨[], notes, e, p, none⟩
  | k :: ks =>
    if !p.contains k then (tryAnchors trace e p notes ks).cons (.gone k)
    else
      let notes := notes.countAnchor
      match e.rule.matchAt p k with
      | none => (tryAnchors trace e p notes ks).cons (.unmatched k)
      | some m =>
        let notes := notes.countMatch
        if !e.transformer.check e.state p m then
          (tryAnchors trace e p notes.countRejected ks).cons (.rejected m p)
        else
          let before? := if trace then some p.render else none
          let (outcome, state) := e.transformer.transform e.state p m
          match outcome.answer with
          | .error reason =>
            ⟨[.failed m p outcome.plan], notes, { e with state }, outcome.plan, some reason⟩
          | .ok () =>
            let record? := before?.map fun before ↦
              ⟨e.rule.name, k, before, outcome.plan.render⟩
            (tryAnchors trace { e with state } outcome.plan (notes.countApplied record?) ks).cons
              (.applied m p outcome.plan)

/-- Takes up one rule, after those that have left the given records. -/
def run (trace : Bool) (e : Entry σ) (p : Plan) (traces : List RewriteTrace) : RuleRun σ :=
  let notes := Notes.blank e.rule.name traces
  match (e.transformer.walker e.state).walk p with
  | .error reason => ⟨[], notes, e, p, some (.plan reason)⟩
  | .ok anchors => e.tryAnchors trace p notes anchors

/-- Takes up one rule after the other until one fails; those after it stay as they are. -/
def runAll (trace : Bool) (traces : List RewriteTrace) : List (Entry σ) → Plan → Pass σ
  | [], p => ⟨[], [], traces, [], p, none⟩
  | e :: es, p =>
    let run := e.run trace p traces
    match run.failure with
    | some reason =>
      ⟨[(e.rule.name, run.attempts)], [], run.notes.traces, run.entry :: es, run.plan, some reason⟩
    | none => (runAll trace run.notes.traces es run.plan).cons e.rule.name run

end Entry

/-! ### Passes -/

/-- A plan, the rules to rewrite it by, and settings. -/
structure Optimizer (σ : Type) where
  plan : Plan
  entries : List (Entry σ)
  config : Config

/-- What one or more passes answer, the optimizer afterwards, and the journal of what happened. -/
structure Run (σ : Type) where
  answer : Except OptimizerError Report
  optimizer : Optimizer σ
  journal : Journal

namespace Optimizer

variable {σ : Type} (o : Optimizer σ)

/-- The names of the rules, in the order in which they are taken up. -/
def ruleNames : List String :=
  o.entries.map (·.rule.name)

/-- Registers a rule after those that are there. -/
def addRule (rule : Rule) (transformer : Transformer σ) (state : σ) : Optimizer σ :=
  { o with entries := o.entries ++ [⟨rule, transformer, state⟩] }

/-- All rules, taken up in their order. -/
def pass : Pass σ :=
  Entry.runAll o.config.traceRewrites [] o.entries o.plan

/-- One pass over all rules. -/
def optimize : Run σ :=
  let pass := o.pass
  { answer := match pass.failure with
      | some e => .error e
      | none => .ok ⟨1, pass.rows, pass.traces⟩
    optimizer := { o with plan := pass.plan, entries := pass.entries }
    journal := pass.journal }

/-- Up to `n` passes, ending with the first that changes nothing or fails. -/
def passes (total : Report) (journal : Journal) : Nat → Optimizer σ → Run σ
  | 0, o => ⟨.ok total, o, journal⟩
  | n + 1, o =>
    let run := o.optimize
    match run.answer with
    | .error e => ⟨.error e, run.optimizer, journal ++ run.journal⟩
    | .ok report =>
      let total := total.absorb report
      if report.changed then passes total (journal ++ run.journal) n run.optimizer
      else ⟨.ok total, run.optimizer, journal ++ run.journal⟩

/-- Passes until one changes nothing, as many as the settings allow. -/
def optimizeUntilStable : Run σ :=
  passes ∅ [] o.config.maxPasses.toNat o

end Optimizer

end Dataflow
