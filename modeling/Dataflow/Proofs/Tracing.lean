import Dataflow.Proofs.Series
import Mathlib.Data.List.Forall2

/-!
# Recording rewrites makes no difference

Whether rewrites are recorded is a setting of the optimizer, and it is asked for in the middle of a
pass: before each rewrite the plan is rendered or not, and after it there is a record or none. All
the same an optimizer that does not record rewrites makes the same runs as one that does, with the
records struck from what is noted down (`Notes.untraced`) and from every report (`Run.untraced`).

The two runs are compared from one anchor to the next (`Entry.tryAnchors_untraced`): they are shown
the same plan by the same transformer in the same state, so they take the same branch, and what they
note down is the same but for the records, which nothing in the pass looks at. This carries over to
rules, whatever their transformers do and whether they fail or not, and to any number of passes,
because the total of reports without records is the total without records, and because a pass is
followed by another one on account of its counters.

So two optimizers that differ in this setting only go through the same plans and states in any
series of calls.
-/

namespace Dataflow

variable {σ : Type}

/-! ### Without records -/

/-- The notes without records. -/
def Notes.untraced (n : Notes) : Notes :=
  { n with traces := [] }

/-- What comes of a rule, without records. -/
def RuleRun.untraced (run : RuleRun σ) : RuleRun σ :=
  { run with notes := run.notes.untraced }

/-- What comes of a pass, without records. -/
def Pass.untraced (pass : Pass σ) : Pass σ :=
  { pass with traces := [] }

/-- The report without its traces. -/
def Report.untraced (r : Report) : Report :=
  { r with traces := [] }

/-- The optimizer with recording on or off. -/
def Optimizer.withTrace (o : Optimizer σ) (b : Bool) : Optimizer σ :=
  { o with config := o.config.withTrace b }

/-- The run as it would have been if nothing had been recorded. -/
def Run.untraced (run : Run σ) : Run σ where
  answer := run.answer.map Report.untraced
  optimizer := run.optimizer.withTrace false
  journal := run.journal

namespace Report

variable (r other : Report)

theorem untraced_absorb : (r.absorb other).untraced = r.untraced.absorb other.untraced :=
  rfl

/-- Whether anything was rewritten is told by the counters. -/
theorem changed_untraced : r.untraced.changed = r.changed :=
  rfl

end Report

/-! ### Two runs of a pass -/

namespace Entry

variable {trace : Bool} {notes : Notes} {traces : List RewriteTrace}

/-- **The anchors of one rule.** By induction on those that remain: with recording or without it,
the same is done at the first of them, and the others find the same plan, entry and counters. -/
theorem tryAnchors_untraced (e : Entry σ) (p : Plan) (ks : List Key) :
    e.tryAnchors false p notes.untraced ks = (e.tryAnchors trace p notes ks).untraced := by
  fun_induction tryAnchors trace e p notes ks with
  | case1 => rfl
  | case2 e p notes k ks hk ih =>
    rw [tryAnchors, if_pos hk]
    exact congrArg (RuleRun.cons _) ih
  | case3 e p notes k ks hk notes₁ hnone ih =>
    rw [tryAnchors, if_neg hk, hnone]
    exact congrArg (RuleRun.cons _) ih
  | case4 e p notes k ks hk notes₁ m hm notes₂ hcheck ih =>
    rw [tryAnchors, if_neg hk, hm]
    dsimp only
    rw [if_pos hcheck]
    exact congrArg (RuleRun.cons _) ih
  | case5 e p notes k ks hk notes₁ m hm notes₂ hcheck outcome state htransform reason hanswer =>
    rw [tryAnchors, if_neg hk, hm]
    simp only [hcheck, htransform, hanswer]
    rfl
  | case6 e p notes k ks hk notes₁ m hm notes₂ hcheck before? outcome state htransform hanswer
      record? ih =>
    rw [tryAnchors, if_neg hk, hm]
    simp only [hcheck, htransform, hanswer]
    -- One run has added a record, or may have, and the other one has added none.
    exact congrArg (RuleRun.cons _) ih

theorem run_untraced (e : Entry σ) (p : Plan) :
    e.run false p [] = (e.run trace p traces).untraced := by
  rw [run, run]
  split
  · rfl
  · exact @tryAnchors_untraced _ _ (.blank e.rule.name traces) e p _

/-- **The rules.** Both runs take up the same rules, and if one ends early, so does the other. -/
theorem runAll_untraced (es : List (Entry σ)) (p : Plan) :
    runAll false [] es p = (runAll trace traces es p).untraced := by
  fun_induction runAll trace traces es p with
  | case1 => rfl
  | case2 traces e es p run reason hfailure =>
    have hrun : e.run false p [] = run.untraced := run_untraced e p
    rw [runAll, hrun, RuleRun.untraced, hfailure]
    rfl
  | case3 traces e es p run hfailure ih =>
    have hrun : e.run false p [] = run.untraced := run_untraced e p
    rw [runAll, hrun, RuleRun.untraced, hfailure]
    exact congrArg (Pass.cons _ _) ih

end Entry

namespace Optimizer

variable (o : Optimizer σ)

/-- **A pass.** -/
theorem optimize_withTrace : (o.withTrace false).optimize = o.optimize.untraced := by
  have hpass : (o.withTrace false).pass = o.pass.untraced := Entry.runAll_untraced o.entries o.plan
  rw [optimize, optimize, hpass]
  rcases o.pass with ⟨journal, rows, traces, entries, plan, failure⟩
  rcases failure with - | e <;> rfl

/-- **Several passes**, with the reports before them added up in the same way. By induction on the
number of passes that may be made: each is followed by another one exactly if its counterpart is. -/
theorem passes_withTrace (total : Report) (journal : Journal) (n : Nat) :
    passes total.untraced journal n (o.withTrace false) = (passes total journal n o).untraced := by
  induction n generalizing o total journal with
  | zero => rfl
  | succ n ih =>
    rw [passes, passes, optimize_withTrace]
    rcases o.optimize with ⟨answer, o', journal'⟩
    rcases answer with e | report
    · rfl
    · have hrest := ih o' (total.absorb report) (journal ++ journal')
      rw [Report.untraced_absorb] at hrest
      show (if report.untraced.changed then
          passes (total.untraced.absorb report.untraced) _ n (o'.withTrace false) else _) =
        Run.untraced (if report.changed then passes (total.absorb report) _ n o' else _)
      rw [Report.changed_untraced]
      split
      · exact hrest
      · rfl

/-- **A call**, of either kind. -/
theorem call_withTrace (c : Call) : (o.withTrace false).call c = (o.call c).untraced := by
  rcases c with - | -
  · exact optimize_withTrace o
  · exact passes_withTrace o ∅ [] o.config.maxPasses.toNat

/-- **Several calls.** Each begins with what the one before has left, in both cases. -/
theorem series_withTrace (calls : List Call) :
    (o.withTrace false).series calls = (o.series calls).map Run.untraced := by
  induction calls generalizing o with
  | nil => rfl
  | cons c calls ih =>
    have hrest := ih (o.call c).optimizer
    rw [series, series, List.map_cons, call_withTrace]
    exact congrArg _ hrest

/-- **Recording has no influence.** Whatever the plan, the rules, their transformers and the number
of passes allowed: in a series of calls of an optimizer that records rewrites and in the same series
of calls of one that does not, the calls fail with the same errors or succeed with the same reports
but for the traces, of which there are none if nothing is recorded. They also leave the same plans
and the same transformers in the same states, and have done the same things on the way. -/
theorem tracing_has_no_influence (calls : List Call) :
    List.Forall₂
      (fun on off : Run σ ↦
        (∀ e, off.answer = .error e ↔ on.answer = .error e) ∧
        (∀ report, on.answer = .ok report →
          off.answer = .ok { passes := report.passes, rules := report.rules, traces := [] }) ∧
        off.optimizer.plan = on.optimizer.plan ∧
        off.optimizer.entries = on.optimizer.entries ∧ off.journal = on.journal)
      ((o.withTrace true).series calls) ((o.withTrace false).series calls) := by
  have hoff : (o.withTrace false).series calls =
      ((o.withTrace true).series calls).map Run.untraced :=
    series_withTrace (o.withTrace true) calls
  rw [hoff, List.forall₂_map_right_iff]
  refine List.forall₂_same.2 fun run _ ↦ ⟨fun e ↦ ?_, fun report hreport ↦ ?_, rfl, rfl, rfl⟩
  · show run.answer.map _ = .error e ↔ run.answer = .error e
    rcases run.answer with e' | report
    · exact Iff.rfl
    · exact iff_of_false nofun nofun
  · exact congrArg (Except.map Report.untraced) hreport

end Optimizer

end Dataflow
