import Dataflow.Proofs.Coverage
import Dataflow.Proofs.Matching
import Dataflow.Proofs.Pruning
import Dataflow.Proofs.Rest

/-!
# Inspection and optimization

`Rule.findAll` looks for a rule in a plan as it is. A pass of an optimizer looks for it anchor by
anchor, in a plan that may have changed since the walker listed the anchors, and counts what it
sees. If no match is wanted, the plan does not change, and both have looked at the same anchors
with the same outcome: the pass counts what an inspection finds.

An entry of this kind (`Entry.Watches`) has nothing but its walker, so what a pass tells of it is
one computation (`Entry.inspect`), and a pass over several of them is the list of these
computations, made one after the other until one fails (`Optimizer.optimize_of_inspect`). The row of
each depends on its own rule and on its own walker, and on no other rule.
-/

namespace Dataflow

variable {σ : Type}

namespace Entry

variable {trace : Bool} {notes : Notes} {traces : List RewriteTrace}
variable {e : Entry σ} {p : Plan} {order : WalkOrder}

/-- **An entry that only watches.** One of the built-in walkers lists its anchors, and its
transformer wants no match, in whatever plan. -/
structure Watches (order : WalkOrder) (e : Entry σ) : Prop where
  walker_eq : e.transformer.walker e.state = order.walker
  check_eq : ∀ p m, e.transformer.check e.state p m = false

/-- What an inspection with the walker of the entry finds. -/
def inspect (e : Entry σ) (p : Plan) : Except PlanError (List Match) :=
  e.rule.findAll p (e.transformer.walker e.state)

/-- The counters for what has been found, all of which was rejected. -/
def watched (e : Entry σ) (p : Plan) (found : List Match) : RuleReport where
  name := e.rule.name
  anchors := p.size
  matched := found.length
  rejected := found.length
  applied := 0

/-- Rules of a document with the action `none` only watch. -/
theorem watches_none (r : Rule) (name : String) (order : WalkOrder) (s : σ) :
    (⟨r, Action.none.transformer σ name order, s⟩ : Entry σ).Watches order :=
  ⟨rfl, fun _ _ ↦ rfl⟩

/-! ### One rule -/

/-- What becomes of an anchor of the plan if no match is wanted. -/
def look (e : Entry σ) (p : Plan) (k : Key) : Attempt :=
  match e.rule.matchAt p k with
  | none => .unmatched k
  | some m => .rejected m p

section Look

variable (e : Entry σ) (p : Plan) (k : Key)

@[simp]
theorem isTried_look : (e.look p k).isTried = true := by
  unfold look
  rcases e.rule.matchAt p k <;> rfl

@[simp]
theorem found?_look : (e.look p k).found? = e.rule.matchAt p k := by
  unfold look
  rcases e.rule.matchAt p k <;> rfl

@[simp]
theorem isRejected_look : (e.look p k).isRejected = (e.rule.matchAt p k).isSome := by
  unfold look
  rcases e.rule.matchAt p k <;> rfl

@[simp]
theorem isApplied_look : (e.look p k).isApplied = false := by
  unfold look
  rcases e.rule.matchAt p k <;> rfl

@[simp]
theorem trace?_look (name : String) : (e.look p k).trace? name = none := by
  unfold look
  rcases e.rule.matchAt p k <;> rfl

/-- The counters, read off the anchors. -/
theorem ofAttempts_look (ks : List Key) :
    RuleReport.ofAttempts e.rule.name (ks.map (e.look p)) =
      ⟨e.rule.name, ks.length, (ks.filterMap (e.rule.matchAt p)).length,
        (ks.filterMap (e.rule.matchAt p)).length, 0⟩ := by
  simp [RuleReport.ofAttempts, List.countP_map, Function.comp_def, List.length_filterMap_eq_countP]

theorem traces_look (name : String) (ks : List Key) :
    (ks.map (e.look p)).filterMap (Attempt.trace? name) = [] := by
  simp

end Look

/-- Every anchor is looked at in the plan that there was when they were listed. -/
theorem Watches.attempts_tryAnchors (h : e.Watches order) {ks : List Key}
    (hks : ∀ k ∈ ks, p.contains k) :
    (e.tryAnchors trace p notes ks).attempts = ks.map (e.look p) := by
  induction ks generalizing notes with
  | nil => rfl
  | cons k ks ih =>
    obtain ⟨hk, hks⟩ := List.forall_mem_cons.1 hks
    rw [tryAnchors, hk, List.map_cons, look]
    rcases e.rule.matchAt p k with - | m
    · exact congrArg (_ :: ·) (ih hks)
    · dsimp only
      rw [h.check_eq]
      exact congrArg (_ :: ·) (ih hks)

/-- If the inspection fails, so does the rule, before it has looked at anything. -/
theorem run_of_inspect_error (trace : Bool) (traces : List RewriteTrace) {cause : PlanError}
    (h : e.inspect p = .error cause) :
    (e.run trace p traces).Leaves e p ∧
      (e.run trace p traces).failure = some (.plan cause) := by
  rw [inspect, Rule.findAll] at h
  rw [run]
  rcases hwalk : (e.transformer.walker e.state).walk p with reason | ks
  · rw [hwalk] at h
    obtain rfl : reason = cause := Except.error.inj h
    exact ⟨⟨rfl, rfl⟩, rfl⟩
  · rw [hwalk] at h
    cases h

theorem exists_walk_of_inspect {found : List Match} (h : e.inspect p = .ok found) :
    ∃ ks, (e.transformer.walker e.state).walk p = .ok ks ∧
      found = ks.filterMap (e.rule.matchAt p) := by
  rw [inspect, Rule.findAll] at h
  rcases hwalk : (e.transformer.walker e.state).walk p with reason | ks
  · rw [hwalk] at h
    cases h
  · rw [hwalk] at h
    exact ⟨ks, rfl, (Except.ok.inj h).symm⟩

/-- Otherwise the rule is at rest. -/
theorem Watches.rests (h : e.Watches order) {found : List Match}
    (hfound : e.inspect p = .ok found) : e.Rests p := by
  obtain ⟨ks, hks, -⟩ := exists_walk_of_inspect hfound
  exact ⟨ks, hks, fun _ _ _ m _ ↦ h.check_eq p m⟩

/-- **One rule counts what it would find.** As the walker lists every operator once, there are as
many anchors as operators. -/
theorem Watches.attempts_run (trace : Bool) (traces : List RewriteTrace) (h : e.Watches order)
    (hl : p.Linked) {found : List Match} (hfound : e.inspect p = .ok found) :
    RuleReport.ofAttempts e.rule.name (e.run trace p traces).attempts = e.watched p found ∧
      (e.run trace p traces).attempts.filterMap (Attempt.trace? e.rule.name) = [] := by
  obtain ⟨ks, hwalk, rfl⟩ := exists_walk_of_inspect hfound
  have hks : order.walker.walk p = .ok ks := h.walker_eq ▸ hwalk
  have hrun : (e.run trace p traces).attempts = ks.map (e.look p) := by
    rw [run, hwalk]
    exact h.attempts_tryAnchors fun k ↦ (WalkOrder.mem_iff_of_walk hl hks).1
  have hsize : ks.length = p.size := Plan.length_eq_size_of_perm (WalkOrder.walk_perm hl hks)
  rw [hrun]
  refine ⟨?_, traces_look ..⟩
  rw [ofAttempts_look, hsize]
  rfl

/-! ### Several rules -/

theorem exists_found_of_rows {es : List (Entry σ)} {rows : List RuleReport}
    (h : List.Forall₂ (fun e row ↦ ∃ found, e.inspect p = .ok found ∧ row = e.watched p found)
      es rows) : ∀ e ∈ es, ∃ found, e.inspect p = .ok found := by
  induction h with
  | nil => exact nofun
  | cons hrow _ ih =>
    obtain ⟨found, hfound, -⟩ := hrow
    exact List.forall_mem_cons.2 ⟨⟨found, hfound⟩, ih⟩

/-- All inspections succeed. By induction on the rules, each of which is at rest. -/
theorem ofJournal_of_inspect {es : List (Entry σ)} {rows : List RuleReport} (hl : p.Linked)
    (h : ∀ e ∈ es, ∃ order, e.Watches order)
    (hrows : List.Forall₂ (fun e row ↦ ∃ found, e.inspect p = .ok found ∧ row = e.watched p found)
      es rows) :
    Report.ofJournal trace (runAll trace traces es p).journal = ⟨1, rows, []⟩ := by
  induction hrows generalizing traces with
  | nil => cases trace <;> rfl
  | @cons e row es rows hrow _ ih =>
    obtain ⟨⟨order, he⟩, hes⟩ := List.forall_mem_cons.1 h
    obtain ⟨found, hfound, rfl⟩ := hrow
    obtain ⟨hleaves, hnone, -⟩ := run_of_rests trace traces (he.rests hfound)
    obtain ⟨hrow, htraces⟩ := he.attempts_run trace traces hl hfound
    obtain ⟨-, hrows, htraces'⟩ := Report.mk.inj (@ih (e.run trace p traces).notes.traces hes)
    rw [runAll_cons_of_leaves hnone hleaves, Pass.cons, Report.ofJournal, List.map_cons, hrow,
      hrows, Journal.traces, List.flatMap_cons, htraces, List.nil_append]
    exact congrArg (Report.mk 1 _) htraces'

/-- The first inspection that fails puts an end to the pass. -/
theorem runAll_of_inspect_error {before after : List (Entry σ)} {cause : PlanError}
    (h : ∀ d ∈ before, ∃ order, d.Watches order)
    (hbefore : ∀ d ∈ before, ∃ found, d.inspect p = .ok found)
    (hcause : e.inspect p = .error cause) :
    (runAll trace traces (before ++ e :: after) p).Leaves (before ++ e :: after) p ∧
      (runAll trace traces (before ++ e :: after) p).failure = some (.plan cause) := by
  induction before generalizing traces with
  | nil =>
    obtain ⟨hleaves, hrun⟩ := run_of_inspect_error trace traces hcause
    obtain ⟨hfailure, hentries, hplan⟩ := runAll_cons_of_failure after hrun
    rw [hleaves.entry_eq] at hentries
    rw [hleaves.plan_eq] at hplan
    exact ⟨⟨hentries, hplan⟩, hfailure⟩
  | cons d before ih =>
    obtain ⟨⟨order, hd⟩, h⟩ := List.forall_mem_cons.1 h
    obtain ⟨⟨found, hfound⟩, hbefore⟩ := List.forall_mem_cons.1 hbefore
    obtain ⟨hleaves, hnone, -⟩ := run_of_rests trace traces (hd.rests hfound)
    obtain ⟨hrest, hfailure⟩ := @ih (d.run trace p traces).notes.traces h hbefore
    rw [List.cons_append, runAll_cons_of_leaves hnone hleaves]
    exact ⟨⟨List.cons_eq_cons.2 ⟨hleaves.entry_eq, hrest.entries_eq⟩, hrest.plan_eq⟩, hfailure⟩

/-- Either all inspections succeed or one of them is the first that fails. -/
theorem exists_rows_or_error (es : List (Entry σ)) (p : Plan) :
    (∃ rows, List.Forall₂
      (fun e row ↦ ∃ found, e.inspect p = .ok found ∧ row = e.watched p found) es rows) ∨
    ∃ before e after cause, es = before ++ e :: after ∧
      (∀ d ∈ before, ∃ found, d.inspect p = .ok found) ∧ e.inspect p = .error cause := by
  induction es with
  | nil => exact .inl ⟨[], .nil⟩
  | cons d es ih =>
    rcases hd : d.inspect p with cause | found
    · exact .inr ⟨[], d, es, cause, rfl, nofun, hd⟩
    · rcases ih with ⟨rows, hrows⟩ | ⟨before, e, after, cause, rfl, hbefore, hcause⟩
      · exact .inl ⟨_, .cons ⟨found, hd, rfl⟩ hrows⟩
      · refine .inr ⟨d :: before, e, after, cause, rfl, ?_, hcause⟩
        exact List.forall_mem_cons.2 ⟨⟨found, hd⟩, hbefore⟩

end Entry

namespace Optimizer

variable {o : Optimizer σ}

section Watching

variable (hwatch : ∀ e ∈ o.entries, ∃ order, e.Watches order)

include hwatch

theorem optimize_of_inspect (h : o.plan.Linked) {rows : List RuleReport}
    (hrows : List.Forall₂
      (fun e row ↦ ∃ found, e.inspect o.plan = .ok found ∧ row = e.watched o.plan found)
      o.entries rows) :
    o.optimize.optimizer = o ∧ o.optimize.answer = .ok ⟨1, rows, []⟩ := by
  have hrest : o.AtRest := fun e he ↦ by
    obtain ⟨order, hwatches⟩ := hwatch e he
    obtain ⟨found, hfound⟩ := Entry.exists_found_of_rows hrows e he
    exact hwatches.rests hfound
  exact ⟨hrest.optimizer_optimize, optimize_answer_eq_ok_iff.2
    ⟨(Entry.runAll_of_rests hrest).2.1, Entry.ofJournal_of_inspect h hwatch hrows⟩⟩

theorem optimize_of_inspect_error {before after : List (Entry σ)} {e : Entry σ} {cause : PlanError}
    (hes : o.entries = before ++ e :: after)
    (hbefore : ∀ d ∈ before, ∃ found, d.inspect o.plan = .ok found)
    (hcause : e.inspect o.plan = .error cause) :
    o.optimize.optimizer = o ∧ o.optimize.answer = .error (.plan cause) := by
  have hpass : o.pass.Leaves o.entries o.plan ∧ o.pass.failure = some (.plan cause) := by
    rw [pass]
    rw [hes] at hwatch ⊢
    exact Entry.runAll_of_inspect_error (fun d hd ↦ hwatch d (List.mem_append_left _ hd))
      hbefore hcause
  exact ⟨optimizer_optimize_of_leaves hpass.1, optimize_answer_eq_error_iff.2 hpass.2⟩

end Watching

/-- **A pass that rewrites nothing is an inspection.** If every rule is looked for in the order of
some built-in walker and no match is wanted, then a pass fails exactly if one of the inspections
does, with the error of the first that does. Otherwise it has tried every operator as an anchor of
every rule, and found and rejected as many matches as the inspection for that rule, whatever other
rules there are. No trace is left, and in either case the optimizer is what it was. -/
theorem inspection_agrees (h : o.plan.Linked)
    (hwatch : ∀ e ∈ o.entries, ∃ order, e.Watches order) :
    o.optimize.optimizer = o ∧
      (∀ failure, o.optimize.answer = .error failure ↔
        ∃ before e after cause, o.entries = before ++ e :: after ∧
          (∀ d ∈ before, ∃ found, d.inspect o.plan = .ok found) ∧
          e.inspect o.plan = .error cause ∧ failure = .plan cause) ∧
      ∀ report, o.optimize.answer = .ok report ↔
        report.passes = 1 ∧ report.traces = [] ∧
          List.Forall₂ (fun e row ↦ ∃ found, e.inspect o.plan = .ok found ∧
            row = ⟨e.rule.name, o.plan.size, found.length, found.length, 0⟩)
            o.entries report.rules := by
  have hok := @optimize_of_inspect _ o hwatch h
  have herror := @optimize_of_inspect_error _ o hwatch
  have hcases := Entry.exists_rows_or_error o.entries o.plan
  refine ⟨?_, fun failure ↦ ⟨fun hfailure ↦ ?_, ?_⟩, fun report ↦ ⟨fun hreport ↦ ?_, ?_⟩⟩
  · obtain ⟨rows, hrows⟩ | ⟨before, e, after, cause, hes, hbefore, hcause⟩ := hcases
    · exact (hok hrows).1
    · exact (herror hes hbefore hcause).1
  · obtain ⟨rows, hrows⟩ | ⟨before, e, after, cause, hes, hbefore, hcause⟩ := hcases
    · exact nomatch hfailure.symm.trans (hok hrows).2
    · have heq := Except.error.inj (hfailure.symm.trans (herror hes hbefore hcause).2)
      exact ⟨before, e, after, cause, hes, hbefore, hcause, heq⟩
  · rintro ⟨before, e, after, cause, hes, hbefore, hcause, rfl⟩
    exact (herror hes hbefore hcause).2
  · obtain ⟨rows, hrows⟩ | ⟨before, e, after, cause, hes, hbefore, hcause⟩ := hcases
    · obtain rfl := Except.ok.inj (hreport.symm.trans (hok hrows).2)
      exact ⟨rfl, rfl, hrows⟩
    · exact nomatch hreport.symm.trans (herror hes hbefore hcause).2
  · rintro ⟨hpasses, htraces, hrows⟩
    rw [(hok hrows).2, ← hpasses, ← htraces]

/-- Sinks are looked for depth-first and what fans out against the edges, and rewrites would be
recorded. -/
def lookout (p : Plan) : Optimizer Unit where
  plan := p
  entries := [⟨.ofKind .sink, Action.none.transformer Unit "sinks" .depthFirst, ()⟩,
    ⟨Rule.fanOut, Action.none.transformer Unit "forks" .reverseDependency, ()⟩]
  config := ⟨16, true⟩

theorem lookout_watches (p : Plan) : ∀ e ∈ (lookout p).entries, ∃ order, e.Watches order :=
  List.forall_mem_cons.2 ⟨⟨_, Entry.watches_none ..⟩,
    List.forall_mem_singleton.2 ⟨_, Entry.watches_none ..⟩⟩

/-- In the fork there are two sinks and one split that feeds them. Where there is feedback, no order
against the edges exists, and so the sinks are looked for in vain. -/
theorem inspection_agrees_fork :
    (lookout .fork).optimize.optimizer = lookout .fork ∧
      (lookout .fork).optimize.answer =
        .ok ⟨1, [⟨"Sink", 4, 2, 2, 0⟩, ⟨"fan-out", 4, 1, 1, 0⟩], []⟩ ∧
      (lookout .feedback).optimize.answer = .error (.plan (.structural (.cycle 1 4))) := by
  have hfork : Plan.fork.Linked := (Plan.checkInvariants_eq_ok_iff.1 (by decide)).1
  have hfeedback : Plan.feedback.Linked := (Plan.checkInvariants_eq_ok_iff.1 (by decide)).1
  obtain ⟨hsame, -, hok⟩ := inspection_agrees (o := lookout .fork) hfork (lookout_watches _)
  obtain ⟨-, herror, -⟩ := inspection_agrees (o := lookout .feedback) hfeedback (lookout_watches _)
  refine ⟨hsame, (hok _).2 ⟨rfl, rfl, ?_⟩, (herror _).2 ⟨[_], _, [], _, rfl, ?_, ?_, rfl⟩⟩
  · refine .cons ⟨[⟨⟨"flow", 2⟩, [some ⟨"flow", 2⟩]⟩, ⟨⟨"flow", 3⟩, [some ⟨"flow", 3⟩]⟩], ?_, rfl⟩
      (.cons ⟨[⟨⟨"flow", 1⟩, [some ⟨"flow", 1⟩, some ⟨"flow", 2⟩, some ⟨"flow", 3⟩]⟩], ?_, rfl⟩ .nil)
    · cbv
    · decide +kernel
  · exact List.forall_mem_singleton.2 ⟨[⟨⟨"loop", 3⟩, [some ⟨"loop", 3⟩]⟩], by cbv⟩
  · decide +kernel

end Optimizer

end Dataflow
