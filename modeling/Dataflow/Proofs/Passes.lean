import Dataflow.Optimizer.Basic

/-!
# From one rewrite to a whole run of the optimizer

A run of the optimizer does nothing to a plan but call transformers, one after the other. What each
call does to the plan is a relation between the plan that the transformer is shown and the plan that
it leaves behind, whether it succeeds or gives up. If such a relation is reflexive and transitive,
it also holds between the plan that a run starts with and every plan that occurs in the run: those
shown to a check, those rewritten, and the one at the end, also where the run comes to an early end.
-/

namespace Dataflow

/-- The plans that a transformer was shown or left behind at an anchor. -/
def Attempt.plans : Attempt → List Plan
  | .gone _ | .unmatched _ => []
  | .rejected _ p => [p]
  | .applied _ before after | .failed _ before after => [before, after]

/-- The plans that occur in a journal. -/
def Journal.plans (journal : Journal) : List Plan :=
  journal.flatMap fun row ↦ row.2.flatMap Attempt.plans

variable {σ : Type} {trace : Bool} {notes : Notes} {traces : List RewriteTrace}

/-- The plans that occur in a run; the first is the one that is there at the end. -/
def Run.plans (run : Run σ) : List Plan :=
  run.optimizer.plan :: Journal.plans run.journal

/-- The rule has left everything as it was. -/
structure RuleRun.Leaves (run : RuleRun σ) (e : Entry σ) (p : Plan) : Prop where
  entry_eq : run.entry = e
  plan_eq : run.plan = p

theorem RuleRun.Leaves.cons {run : RuleRun σ} {e : Entry σ} {p : Plan} (h : run.Leaves e p)
    (a : Attempt) : (run.cons a).Leaves e p :=
  ⟨h.entry_eq, h.plan_eq⟩

/-- The rules have left everything as it was. -/
structure Pass.Leaves (pass : Pass σ) (es : List (Entry σ)) (p : Plan) : Prop where
  entries_eq : pass.entries = es
  plan_eq : pass.plan = p

namespace Entry

/-- Whatever is rewritten by the entry, in whatever state, leads to a plan in relation `R` to the
one that is rewritten. Only matches count that the optimizer would hand over. -/
def Follows (R : Plan → Plan → Prop) (e : Entry σ) : Prop :=
  ∀ s p k m, p.contains k → e.rule.matchAt p k = some m → e.transformer.check s p m = true →
    R p (e.transformer.transform s p m).1.plan

/-- The same rule with the same transformer, in whatever state. -/
def SameAs (e e' : Entry σ) : Prop :=
  e'.rule = e.rule ∧ e'.transformer = e.transformer

theorem Follows.of_sameAs {R : Plan → Plan → Prop} {e e' : Entry σ} (h : e.Follows R)
    (he : e.SameAs e') : e'.Follows R := by
  obtain ⟨hrule, htransformer⟩ := he
  rw [Follows]
  rw [hrule, htransformer]
  exact h

theorem sameAs_tryAnchors (e : Entry σ) (p : Plan) (ks : List Key) :
    e.SameAs (e.tryAnchors trace p notes ks).entry := by
  fun_induction tryAnchors trace e p notes ks <;> simp_all [SameAs, RuleRun.cons]

theorem sameAs_run (e : Entry σ) (p : Plan) : e.SameAs (e.run trace p traces).entry := by
  rw [run]
  split
  · exact ⟨rfl, rfl⟩
  · exact sameAs_tryAnchors ..

theorem rule_run (e : Entry σ) (p : Plan) : (e.run trace p traces).entry.rule = e.rule :=
  (sameAs_run e p).1

theorem names_runAll (es : List (Entry σ)) (p : Plan) :
    (runAll trace traces es p).entries.map (·.rule.name) = es.map (·.rule.name) := by
  fun_induction runAll trace traces es p with
  | case1 traces p => rfl
  | case2 traces e es p run reason hfailure =>
    exact congrArg (·.name :: _) (rule_run e p)
  | case3 traces e es p run hfailure ih =>
    exact List.cons_eq_cons.2 ⟨congrArg (·.name) (rule_run e p), ih⟩

/-- A pass that does not fail takes up every rule. -/
theorem names_journal {es : List (Entry σ)} {p : Plan}
    (h : (runAll trace traces es p).failure = none) :
    (runAll trace traces es p).journal.map (·.1) = es.map (·.rule.name) := by
  fun_induction runAll trace traces es p with
  | case1 traces p => rfl
  | case2 => cases h
  | case3 traces e es p run hfailure ih => exact congrArg (e.rule.name :: ·) (ih h)

section Related

variable {R : Plan → Plan → Prop} (hrefl : ∀ p, R p p) (htrans : ∀ {p q r}, R p q → R q r → R p r)

include hrefl htrans

/-- The anchors of one rule: by induction on those that remain, where only a rewrite moves on to
another plan. -/
theorem related_tryAnchors {e : Entry σ} (h : e.Follows R) (p : Plan) (ks : List Key) :
    R p (e.tryAnchors trace p notes ks).plan ∧
      ∀ q ∈ (e.tryAnchors trace p notes ks).attempts.flatMap Attempt.plans, R p q := by
  fun_induction tryAnchors trace e p notes ks with
  | case1 e p notes => exact ⟨hrefl p, nofun⟩
  | case2 e p notes k ks hk ih => exact ih h
  | case3 e p notes k ks hk notes' hnone ih => exact ih h
  | case4 e p notes k ks hk notes₁ m hm notes₂ hcheck ih =>
    obtain ⟨hlast, hplans⟩ := ih h
    exact ⟨hlast, List.forall_mem_cons.2 ⟨hrefl p, hplans⟩⟩
  | case5 e p notes k ks hk notes₁ m hm notes₂ hcheck outcome state htransform reason hanswer =>
    have hstep := h e.state p k m (by simpa using hk) hm (by simpa using hcheck)
    rw [htransform] at hstep
    exact ⟨hstep, List.forall_mem_cons.2 ⟨hrefl p, List.forall_mem_singleton.2 hstep⟩⟩
  | case6 e p notes k ks hk notes₁ m hm notes₂ hcheck before? outcome state htransform hanswer
      record? ih =>
    have hstep := h e.state p k m (by simpa using hk) hm (by simpa using hcheck)
    rw [htransform] at hstep
    obtain ⟨hlast, hplans⟩ := ih h
    refine ⟨htrans hstep hlast, List.forall_mem_cons.2 ⟨hrefl p, List.forall_mem_cons.2 ?_⟩⟩
    exact ⟨hstep, fun q hq ↦ htrans hstep (hplans q hq)⟩

theorem related_run {e : Entry σ} (h : e.Follows R) (p : Plan) :
    R p (e.run trace p traces).plan ∧
      ∀ q ∈ (e.run trace p traces).attempts.flatMap Attempt.plans, R p q := by
  rw [run]
  split
  · exact ⟨hrefl p, nofun⟩
  · exact related_tryAnchors hrefl htrans h p _

theorem related_runAll {es : List (Entry σ)} (h : ∀ e ∈ es, e.Follows R) (p : Plan) :
    R p (runAll trace traces es p).plan ∧
      ∀ q ∈ Journal.plans (runAll trace traces es p).journal, R p q := by
  fun_induction runAll trace traces es p with
  | case1 traces p => exact ⟨hrefl p, nofun⟩
  | case2 traces e es p run reason hfailure =>
    obtain ⟨hlast, hplans⟩ := related_run hrefl htrans (h e (List.mem_cons_self ..)) p
    refine ⟨hlast, fun r hr ↦ hplans r ?_⟩
    rwa [Journal.plans, List.flatMap_singleton] at hr
  | case3 traces e es p run hfailure ih =>
    obtain ⟨hlast, hplans⟩ := related_run hrefl htrans (h e (List.mem_cons_self ..)) p
    obtain ⟨hlast', hplans'⟩ := ih fun e he ↦ h e (.tail _ he)
    refine ⟨htrans hlast hlast', fun r hr ↦ ?_⟩
    rcases List.mem_append.1 hr with hr | hr
    · exact hplans r hr
    · exact htrans hlast (hplans' r hr)

end Related

/-- A rule that has failed is the last one. -/
theorem runAll_cons_of_failure {e : Entry σ} (es : List (Entry σ)) {p : Plan}
    {reason : OptimizerError} (h : (e.run trace p traces).failure = some reason) :
    (runAll trace traces (e :: es) p).failure = some reason ∧
      (runAll trace traces (e :: es) p).entries = (e.run trace p traces).entry :: es ∧
      (runAll trace traces (e :: es) p).plan = (e.run trace p traces).plan := by
  rw [runAll, h]
  exact ⟨rfl, rfl, rfl⟩

/-- A rule that has left everything as it was makes no difference to those after it. -/
theorem runAll_cons_of_leaves {e : Entry σ} {es : List (Entry σ)} {p : Plan}
    (hfailure : (e.run trace p traces).failure = none) (h : (e.run trace p traces).Leaves e p) :
    runAll trace traces (e :: es) p =
      (runAll trace (e.run trace p traces).notes.traces es p).cons e.rule.name
        (e.run trace p traces) := by
  rw [runAll, hfailure, h.plan_eq]

/-- No rule is added, and none gets another transformer. -/
theorem exists_sameAs_of_mem_runAll {es : List (Entry σ)} {p : Plan} {e' : Entry σ}
    (h : e' ∈ (runAll trace traces es p).entries) : ∃ e ∈ es, e.SameAs e' := by
  fun_induction runAll trace traces es p with
  | case1 traces p => cases h
  | case2 traces e es p run reason hfailure =>
    rcases List.mem_cons.1 h with rfl | h
    · exact ⟨e, List.mem_cons_self .., sameAs_run e p⟩
    · exact ⟨e', .tail _ h, rfl, rfl⟩
  | case3 traces e es p run hfailure ih =>
    rcases List.mem_cons.1 h with rfl | h
    · exact ⟨e, List.mem_cons_self .., sameAs_run e p⟩
    · obtain ⟨d, hd, hsame⟩ := ih h
      exact ⟨d, .tail _ hd, hsame⟩

end Entry

namespace Optimizer

variable {o : Optimizer σ} {R : Plan → Plan → Prop}

/-- Every entry of the optimizer rewrites in relation `R`. -/
def Follows (R : Plan → Plan → Prop) (o : Optimizer σ) : Prop :=
  ∀ e ∈ o.entries, e.Follows R

theorem Follows.optimize (h : o.Follows R) : o.optimize.optimizer.Follows R := by
  intro e he
  obtain ⟨d, hd, hsame⟩ := Entry.exists_sameAs_of_mem_runAll he
  exact (h d hd).of_sameAs hsame

section Related

variable (hrefl : ∀ p, R p p) (htrans : ∀ {p q r}, R p q → R q r → R p r)

include hrefl htrans

/-- **One pass.** -/
theorem related_optimize (h : o.Follows R) : ∀ q ∈ o.optimize.plans, R o.plan q :=
  List.forall_mem_cons.2 (Entry.related_runAll hrefl htrans h o.plan)

/-- Several passes, which go on with a journal of plans in relation `R` to `p`. -/
theorem related_passes {p : Plan} (n : Nat) (h : o.Follows R) {total : Report} {journal : Journal}
    (hp : R p o.plan) (hjournal : ∀ q ∈ journal.plans, R p q) :
    ∀ q ∈ (passes total journal n o).plans, R p q := by
  induction n generalizing o total journal with
  | zero => exact List.forall_mem_cons.2 ⟨hp, hjournal⟩
  | succ n ih =>
    obtain ⟨hlast, hplans⟩ := List.forall_mem_cons.1 (related_optimize hrefl htrans h)
    -- What the pass does starts from the last plan so far, which is in relation to `p`.
    have hlast' := htrans hp hlast
    have hjournal' : ∀ q ∈ Journal.plans (journal ++ o.optimize.journal), R p q := by
      intro q hq
      rw [Journal.plans, List.flatMap_append] at hq
      rcases List.mem_append.1 hq with hq | hq
      · exact hjournal q hq
      · exact htrans hp (hplans q hq)
    rw [passes]
    dsimp only
    split
    · exact List.forall_mem_cons.2 ⟨hlast', hjournal'⟩
    · split
      · exact ih h.optimize hlast' hjournal'
      · exact List.forall_mem_cons.2 ⟨hlast', hjournal'⟩

/-- **As many passes as it takes.** -/
theorem related_optimizeUntilStable (h : o.Follows R) :
    ∀ q ∈ o.optimizeUntilStable.plans, R o.plan q :=
  related_passes hrefl htrans _ h (hrefl _) nofun

end Related

end Optimizer

end Dataflow
