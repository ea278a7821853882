import Dataflow.Proofs.Trails

/-!
# Optimizers at rest

An optimizer is at rest if none of its rules has a match that is wanted, at any of the anchors that
are tried. A pass succeeds without a single rewrite exactly then (`Optimizer.atRest_iff`), and it
leaves not only the plan but the optimizer as it was, so that any number of further passes does the
same.
-/

namespace Dataflow

variable {σ : Type}

/-- The run has succeeded without a single rewrite. -/
def Run.Settled (run : Run σ) : Prop :=
  ∃ report, run.answer = .ok report ∧ report.rewrites = 0

namespace Entry

/-- If the rule has a match at `k`, it is not wanted. -/
def Idle (e : Entry σ) (p : Plan) (k : Key) : Prop :=
  ∀ m, e.rule.matchAt p k = some m → e.transformer.check e.state p m = false

/-- The walker succeeds, and at whatever it lists the rule is idle. -/
def Rests (e : Entry σ) (p : Plan) : Prop :=
  ∃ ks, (e.transformer.walker e.state).walk p = .ok ks ∧ ∀ k ∈ ks, p.contains k → e.Idle p k

variable {trace : Bool} {notes : Notes} {traces : List RewriteTrace} {e : Entry σ} {p : Plan}

theorem tryAnchors_of_idle {ks : List Key} (h : ∀ k ∈ ks, p.contains k → e.Idle p k) :
    (e.tryAnchors trace p notes ks).Leaves e p ∧ (e.tryAnchors trace p notes ks).failure = none ∧
      (e.tryAnchors trace p notes ks).attempts.countP Attempt.isApplied = 0 := by
  have htail : ∀ {k ks} {e : Entry σ} {p}, (∀ j ∈ k :: ks, p.contains j → e.Idle p j) →
      ∀ j ∈ ks, p.contains j → e.Idle p j := fun h j hj ↦ h j (.tail _ hj)
  fun_induction tryAnchors trace e p notes ks with
  | case1 e p notes => exact ⟨⟨rfl, rfl⟩, rfl, rfl⟩
  | case2 e p notes k ks hk ih => exact (ih (htail h)).imp_left (·.cons _)
  | case3 e p notes k ks hk notes₁ hnone ih => exact (ih (htail h)).imp_left (·.cons _)
  | case4 e p notes k ks hk notes₁ m hm notes₂ hcheck ih => exact (ih (htail h)).imp_left (·.cons _)
  | case5 e p notes k ks hk notes₁ m hm notes₂ hcheck =>
    have hidle := h k (List.mem_cons_self ..) (by simpa using hk) m hm
    simp [hidle] at hcheck
  | case6 e p notes k ks hk notes₁ m hm notes₂ hcheck =>
    have hidle := h k (List.mem_cons_self ..) (by simpa using hk) m hm
    simp [hidle] at hcheck

theorem idle_of_tryAnchors {ks : List Key}
    (hfailure : (e.tryAnchors trace p notes ks).failure = none)
    (hcount : (e.tryAnchors trace p notes ks).attempts.countP Attempt.isApplied = 0) :
    ∀ k ∈ ks, p.contains k → e.Idle p k := by
  fun_induction tryAnchors trace e p notes ks with
  | case1 e p notes => exact fun k hk ↦ absurd hk List.not_mem_nil
  | case2 e p notes k ks hk ih =>
    exact List.forall_mem_cons.2 ⟨fun hk' ↦ by simp [hk'] at hk, ih hfailure hcount⟩
  | case3 e p notes k ks hk notes₁ hnone ih =>
    exact List.forall_mem_cons.2 ⟨fun _ m hm ↦ by simp [hnone] at hm, ih hfailure hcount⟩
  | case4 e p notes k ks hk notes₁ m hm notes₂ hcheck ih =>
    refine List.forall_mem_cons.2 ⟨fun _ m' hm' ↦ ?_, ih hfailure hcount⟩
    obtain rfl := Option.some.inj (hm.symm.trans hm')
    simpa using hcheck
  | case5 => cases hfailure
  | case6 =>
    rw [RuleRun.cons, List.countP_cons] at hcount
    exact absurd hcount (Nat.succ_ne_zero _)

/-- A rule that is taken up at rest does nothing. -/
theorem run_of_rests (trace : Bool) (traces : List RewriteTrace) (h : e.Rests p) :
    (e.run trace p traces).Leaves e p ∧ (e.run trace p traces).failure = none ∧
      (e.run trace p traces).attempts.countP Attempt.isApplied = 0 := by
  obtain ⟨ks, hks, hidle⟩ := h
  rw [run, hks]
  exact tryAnchors_of_idle hidle

theorem rests_of_run (hfailure : (e.run trace p traces).failure = none)
    (hcount : (e.run trace p traces).attempts.countP Attempt.isApplied = 0) : e.Rests p := by
  rw [run] at hfailure hcount
  split at hfailure
  · cases hfailure
  next anchors hwalk =>
    rw [hwalk] at hcount
    exact ⟨anchors, hwalk, idle_of_tryAnchors hfailure hcount⟩

theorem runAll_of_rests {es : List (Entry σ)} (h : ∀ e ∈ es, e.Rests p) :
    (runAll trace traces es p).Leaves es p ∧ (runAll trace traces es p).failure = none ∧
      (runAll trace traces es p).journal.attempts.countP Attempt.isApplied = 0 := by
  induction es generalizing traces with
  | nil => exact ⟨⟨rfl, rfl⟩, rfl, rfl⟩
  | cons e es ih =>
    obtain ⟨he, hes⟩ := List.forall_mem_cons.1 h
    obtain ⟨hleaves, hnone, hcount⟩ := run_of_rests trace traces he
    obtain ⟨hrest, hnone', hcount'⟩ := @ih (e.run trace p traces).notes.traces hes
    rw [runAll_cons_of_leaves hnone hleaves, Pass.cons, Journal.attempts, List.flatMap_cons,
      List.countP_append]
    exact ⟨⟨List.cons_eq_cons.2 ⟨hleaves.entry_eq, hrest.entries_eq⟩, hrest.plan_eq⟩, hnone',
      Nat.add_eq_zero_iff.2 ⟨hcount, hcount'⟩⟩

/-- If nothing was rewritten, every rule was at rest in the plan that there is: the rules before it
have left the plan as it was. -/
theorem rests_of_runAll {es : List (Entry σ)}
    (hfailure : (runAll trace traces es p).failure = none)
    (hcount : (runAll trace traces es p).journal.attempts.countP Attempt.isApplied = 0) :
    ∀ e ∈ es, e.Rests p := by
  fun_induction runAll trace traces es p with
  | case1 => exact fun _ h ↦ absurd h List.not_mem_nil
  | case2 => cases hfailure
  | case3 traces e es p run hnone ih =>
    rw [Pass.cons, Journal.attempts, List.flatMap_cons, List.countP_append,
      Nat.add_eq_zero_iff] at hcount
    have hrests : e.Rests p := rests_of_run hnone hcount.1
    have hplan : run.plan = p := (run_of_rests trace traces hrests).1.plan_eq
    rw [hplan] at ih hfailure hcount
    exact List.forall_mem_cons.2 ⟨hrests, ih hfailure hcount.2⟩

end Entry

namespace Optimizer

variable {o : Optimizer σ}

/-- All rules rest in the plan that there is. -/
def AtRest (o : Optimizer σ) : Prop :=
  ∀ e ∈ o.entries, e.Rests o.plan

/-- **A pass at rest changes nothing at all.** -/
theorem AtRest.optimizer_optimize (h : o.AtRest) : o.optimize.optimizer = o :=
  optimizer_optimize_of_leaves (Entry.runAll_of_rests h).1

/-- **Rest shows.** A pass succeeds without a rewrite exactly at rest. -/
theorem atRest_iff : o.AtRest ↔ o.optimize.Settled := by
  constructor
  · intro h
    obtain ⟨-, hfailure, hcount⟩ := Entry.runAll_of_rests h
    refine ⟨_, optimize_answer_eq_ok_iff.2 ⟨hfailure, rfl⟩, ?_⟩
    rw [Report.rewrites_ofJournal]
    exact hcount
  · rintro ⟨report, hreport, hzero⟩
    rw [rewrites_of_optimize hreport] at hzero
    exact Entry.rests_of_runAll (optimize_answer_eq_ok_iff.1 hreport).1 hzero

end Optimizer

end Dataflow
