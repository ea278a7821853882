import Dataflow.Proofs.Matching
import Dataflow.Proofs.Passes

/-!
# What a journal tells

A pass keeps its counters while it goes from anchor to anchor, and renders the plan before and after
a rewrite if it is to be recorded. All of this is in the journal as well: what is noted down at an
attempt is a matter of this attempt alone (`Entry.notes_tryAnchors`). So a pass that does not fail
reports what can be read off its journal afterwards (`Optimizer.optimize_answer_eq_ok_iff`).
-/

namespace Dataflow

/-! ### Reports that are read off -/

namespace Attempt

/-- Whether the anchor was still in the plan. -/
def isTried : Attempt → Bool
  | gone _ => false
  | _ => true

/-- Whether the match was not wanted. -/
def isRejected : Attempt → Bool
  | rejected .. => true
  | _ => false

/-- Whether the plan was rewritten. -/
def isApplied : Attempt → Bool
  | applied .. => true
  | _ => false

/-- The record of a rewrite. -/
def trace? (rule : String) : Attempt → Option RewriteTrace
  | applied m before after => some ⟨rule, m.anchor, before.render, after.render⟩
  | _ => none

end Attempt

namespace Journal

/-- All attempts of a journal, one after the other. -/
def attempts (journal : Journal) : List Attempt :=
  journal.flatMap (·.2)

/-- The traces in a journal. -/
def traces (journal : Journal) : List RewriteTrace :=
  journal.flatMap fun row ↦ row.2.filterMap (Attempt.trace? row.1)

end Journal

/-- The counters for the attempts at one rule. -/
def RuleReport.ofAttempts (name : String) (attempts : List Attempt) : RuleReport where
  name
  anchors := attempts.countP Attempt.isTried
  matched := attempts.countP (·.found?.isSome)
  rejected := attempts.countP Attempt.isRejected
  applied := attempts.countP Attempt.isApplied

/-- The report of one pass. -/
def Report.ofJournal (trace : Bool) (journal : Journal) : Report where
  passes := 1
  rules := journal.map fun e ↦ .ofAttempts e.1 e.2
  traces := if trace then journal.traces else []

theorem Report.rewrites_ofJournal (trace : Bool) (journal : Journal) :
    (Report.ofJournal trace journal).rewrites = journal.attempts.countP Attempt.isApplied := by
  show (journal.map _).foldr _ 0 = _
  induction journal with
  | nil => rfl
  | cons row journal ih =>
    rw [List.map_cons, List.foldr_cons, ih, Journal.attempts, Journal.attempts, List.flatMap_cons,
      List.countP_append]
    rfl

/-! ### Notes -/

namespace Notes

/-- The notes after one more attempt at the rule of that name. -/
def after (trace : Bool) (name : String) (n : Notes) : Attempt → Notes
  | .gone _ => n
  | .unmatched _ => n.countAnchor
  | .rejected .. => n.countAnchor.countMatch.countRejected
  | .failed .. => n.countAnchor.countMatch
  | .applied m p q => n.countAnchor.countMatch.countApplied
      (if trace then some ⟨name, m.anchor, p.render, q.render⟩ else none)

variable {trace : Bool} {name : String}

theorem row_foldl_after (n : Notes) (as : List Attempt) :
    (as.foldl (after trace name) n).row = n.row.add (.ofAttempts name as) := by
  induction as generalizing n with
  | nil => rfl
  | cons a as ih =>
    rw [List.foldl_cons, ih]
    simp only [RuleReport.add, RuleReport.ofAttempts, List.countP_cons, RuleReport.mk.injEq]
    cases a <;> refine ⟨rfl, ?_⟩
    all_goals
      simp only [after, countAnchor, countMatch, countRejected, countApplied, Attempt.isTried,
        Attempt.isRejected, Attempt.isApplied, Attempt.found?, Option.isSome, if_true]
      grind

theorem traces_foldl_after (n : Notes) (as : List Attempt) :
    (as.foldl (after trace name) n).traces =
      n.traces ++ if trace then as.filterMap (Attempt.trace? name) else [] := by
  induction as generalizing n with
  | nil => cases trace <;> exact (List.append_nil _).symm
  | cons a as ih =>
    rw [List.foldl_cons, ih]
    cases a with
    | gone | unmatched | rejected | failed => rfl
    | applied m p q =>
      show n.traces ++ _ ++ _ = _
      rw [List.append_assoc]
      cases trace <;> rfl

end Notes

namespace Entry

variable {σ : Type} {trace : Bool} {notes : Notes} {traces : List RewriteTrace}

/-- **What is noted down is in the attempts**, with recording and without it. -/
theorem notes_tryAnchors (e : Entry σ) (p : Plan) (ks : List Key) :
    (e.tryAnchors trace p notes ks).notes =
      (e.tryAnchors trace p notes ks).attempts.foldl (Notes.after trace e.rule.name) notes := by
  fun_induction tryAnchors trace e p notes ks with
  | case1 => rfl
  | case2 e p notes k ks hk ih => exact ih
  | case3 e p notes k ks hk notes₁ hnone ih => exact ih
  | case4 e p notes k ks hk notes₁ m hm notes₂ hcheck ih => exact ih
  | case5 => rfl
  | case6 e p notes k ks hk notes₁ m hm notes₂ hcheck before? outcome state htransform hanswer
      record? ih =>
    -- The record names the anchor that was tried, which is the one of the match.
    have hnotes : notes.after trace e.rule.name (.applied m p outcome.plan) =
        notes₂.countApplied record? := by
      rw [Notes.after, (Rule.matchAt_eq_some_iff.1 hm).2.1]
      cases trace <;> rfl
    rw [RuleRun.cons, List.foldl_cons, hnotes]
    exact ih

theorem notes_run (e : Entry σ) (p : Plan) :
    (e.run trace p traces).notes = (e.run trace p traces).attempts.foldl
      (Notes.after trace e.rule.name) (.blank e.rule.name traces) := by
  rw [run]
  split
  · rfl
  · exact notes_tryAnchors ..

theorem row_run (e : Entry σ) (p : Plan) :
    (e.run trace p traces).notes.row = .ofAttempts e.rule.name (e.run trace p traces).attempts := by
  rw [notes_run, Notes.row_foldl_after]
  simp [Notes.blank, RuleReport.add, RuleReport.ofAttempts]

theorem traces_run (e : Entry σ) (p : Plan) :
    (e.run trace p traces).notes.traces = traces ++
      if trace then (e.run trace p traces).attempts.filterMap (Attempt.trace? e.rule.name)
      else [] := by
  rw [notes_run, Notes.traces_foldl_after]
  rfl

/-- By induction on the rules: each adds to the records of those before it. -/
theorem traces_runAll (es : List (Entry σ)) (p : Plan) :
    (runAll trace traces es p).traces = traces ++
      if trace then (runAll trace traces es p).journal.traces else [] := by
  fun_induction runAll trace traces es p with
  | case1 traces p => cases trace <;> exact (List.append_nil _).symm
  | case2 traces e es p run reason hfailure =>
    rw [Journal.traces, List.flatMap_singleton]
    exact traces_run e p
  | case3 traces e es p run hfailure ih =>
    have hfirst : run.notes.traces = _ := traces_run e p
    rw [Pass.cons, ih, Journal.traces, Journal.traces, List.flatMap_cons, hfirst, List.append_assoc]
    cases trace <;> rfl

theorem rows_runAll {es : List (Entry σ)} {p : Plan}
    (h : (runAll trace traces es p).failure = none) :
    (runAll trace traces es p).rows =
      (runAll trace traces es p).journal.map fun row ↦ .ofAttempts row.1 row.2 := by
  fun_induction runAll trace traces es p with
  | case1 => rfl
  | case2 => cases h
  | case3 traces e es p run hfailure ih => exact List.cons_eq_cons.2 ⟨row_run e p, ih h⟩

end Entry

/-! ### What a pass answers -/

namespace Optimizer

variable {σ : Type} {o : Optimizer σ}

theorem optimize_answer_eq_error_iff {e : OptimizerError} :
    o.optimize.answer = .error e ↔ o.pass.failure = some e := by
  rw [optimize]
  dsimp only
  cases o.pass.failure <;> simp

/-- **Reports can be read off the journal.** -/
theorem optimize_answer_eq_ok_iff {report : Report} :
    o.optimize.answer = .ok report ↔ o.pass.failure = none ∧
      Report.ofJournal o.config.traceRewrites o.optimize.journal = report := by
  rw [optimize]
  dsimp only
  cases hfailure : o.pass.failure with
  | some e => simp
  | none =>
    have hrows : o.pass.rows = _ := Entry.rows_runAll hfailure
    have htraces : o.pass.traces = _ := Entry.traces_runAll o.entries o.plan
    rw [hrows, htraces, List.nil_append, Except.ok.injEq, Report.ofJournal]
    simp only [true_and]
    rfl

/-- If the rules leave everything as it was, so does the pass. -/
theorem optimizer_optimize_of_leaves (h : o.pass.Leaves o.entries o.plan) :
    o.optimize.optimizer = o := by
  show { o with plan := o.pass.plan, entries := o.pass.entries } = o
  rw [h.entries_eq, h.plan_eq]

/-- A report tells the number of rewrites in the journal. -/
theorem rewrites_of_optimize {report : Report} (h : o.optimize.answer = .ok report) :
    report.rewrites = o.optimize.journal.attempts.countP Attempt.isApplied := by
  rw [← (optimize_answer_eq_ok_iff.1 h).2]
  exact Report.rewrites_ofJournal ..

theorem passes_of_optimize {report : Report} (h : o.optimize.answer = .ok report) :
    report.passes = 1 := by
  rw [← (optimize_answer_eq_ok_iff.1 h).2]
  rfl

end Optimizer

end Dataflow
