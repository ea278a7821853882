import Dataflow.Proofs.Coverage
import Dataflow.Proofs.Pruning
import Dataflow.Proofs.Rest
import Dataflow.Proofs.Tallies

/-!
# Passes come to an end

Every rewrite by a rule of a document costs the plan an operator, so the size of the plan bounds the
number of rewrites, and with it the number of passes that change something. After those there is at
most one more, and it leaves the optimizer at rest. Built-in walkers list every operator, so at rest
no rule has anything left to do anywhere.
-/

namespace Dataflow

variable {σ : Type}

/-! ### Rewrites cost operators -/

namespace Entry

variable {e : Entry σ} {p q : Plan} {attempt : Attempt}

/-- **A rewrite takes an operator out**, and puts none in. -/
theorem Scripted.covers_of_applied {m : Match} {before after : Plan} (h : e.Scripted)
    (hp : p.checkInvariants = .ok ()) (ht : e.Tries p (.applied m before after) q) :
    before.Covers after ∧ ∃ k, before.contains k ∧ ¬after.contains k := by
  obtain ⟨-, hnone, -⟩ | ⟨rule, a, m', -, hc, hq, hattempt⟩ := h.tries_cases hp ht
  · cases hnone
  · cases hattempt
    subst hq
    exact ⟨Action.covers_rewrite hp hc rule, Action.exists_gone_rewrite hp hc rule⟩

theorem Scripted.size_of_tries (h : e.Scripted) (hp : p.checkInvariants = .ok ())
    (ht : e.Tries p attempt q) : (if attempt.isApplied then 1 else 0) + q.size ≤ p.size := by
  obtain ⟨rfl, hnone, -⟩ | ⟨rule, a, m, -, hc, hq, rfl⟩ := h.tries_cases hp ht
  · rw [hnone]
    exact Nat.le_of_eq (Nat.zero_add _)
  · obtain ⟨hcovers, k, hk, hgone⟩ := h.covers_of_applied hp ht
    have hlt : q.size < p.size := hcovers.size_lt hk hgone
    show 1 + q.size ≤ p.size
    omega

end Entry

namespace Optimizer

variable {o : Optimizer σ}

/-- **A pass has at most as many rewrites as it takes operators out.** -/
theorem Ready.rewrites_add_size_le (h : o.Ready) {report : Report}
    (hreport : o.optimize.answer = .ok report) :
    report.rewrites + o.optimize.optimizer.plan.size ≤ o.plan.size := by
  rw [rewrites_of_optimize hreport]
  exact o.trail_optimize.countP_add_le h.checkInvariants_of_tries
    (fun e he p attempt q hp ht ↦ (h.scripted e he).size_of_tries hp ht) h.checkInvariants

theorem Ready.size_lt_of_changed (h : o.Ready) {report : Report}
    (hreport : o.optimize.answer = .ok report) (hchanged : report.changed = true) :
    o.optimize.optimizer.plan.size < o.plan.size := by
  have hsize := h.rewrites_add_size_le hreport
  have hpos : 0 < report.rewrites := of_decide_eq_true hchanged
  omega

/-- The same with what was counted before the pass. -/
theorem Ready.absorb_pass (h : o.Ready) (total : Report) {report : Report}
    (hreport : o.optimize.answer = .ok report) :
    (total.absorb report).rewrites + o.optimize.optimizer.plan.size ≤
        total.rewrites + o.plan.size ∧
      (total.absorb report).passes = total.passes + 1 := by
  have hsize := h.rewrites_add_size_le hreport
  rw [Report.rewrites_absorb]
  refine ⟨by omega, ?_⟩
  show total.passes + report.passes = total.passes + 1
  rw [passes_of_optimize hreport]

/-- **Passes bound themselves.** Each of them but the last takes an operator out. -/
theorem Ready.bounds_passes (h : o.Ready) {total : Report} {journal : Journal} {n : Nat}
    {report : Report} (hreport : (passes total journal n o).answer = .ok report) :
    report.rewrites + (passes total journal n o).optimizer.plan.size ≤
        total.rewrites + o.plan.size ∧
      report.passes ≤ total.passes + o.plan.size + 1 := by
  fun_induction passes total journal n o with
  | case1 total journal o =>
    obtain rfl := Except.ok.inj hreport
    exact ⟨Nat.le_refl _, by omega⟩
  | case2 => cases hreport
  | case3 total journal n o run pass hanswer total' hchanged ih =>
    -- One pass more, but an operator less for those that follow.
    have hlt : run.optimizer.plan.size < o.plan.size := h.size_lt_of_changed hanswer hchanged
    obtain ⟨hrewrites, hpasses⟩ : _ ∧ total'.passes = total.passes + 1 :=
      h.absorb_pass total hanswer
    obtain ⟨hrewrites', hpasses'⟩ := ih h.becomes.optimize.ready hreport
    exact ⟨hrewrites'.trans hrewrites, by omega⟩
  | case4 total journal n o run pass hanswer total' hchanged =>
    obtain rfl := Except.ok.inj hreport
    obtain ⟨hrewrites, hpasses⟩ : _ ∧ total'.passes = total.passes + 1 :=
      h.absorb_pass total hanswer
    exact ⟨hrewrites, by omega⟩

/-! ### Where passes end -/

/-- With more passes than operators, the last of them changes nothing. -/
theorem Ready.exists_settled_of_size_lt (h : o.Ready) {total : Report} {journal : Journal} {n : Nat}
    (hn : o.plan.size < n) {report : Report}
    (hreport : (passes total journal n o).answer = .ok report) :
    ∃ last ∈ (passList n o).getLast?, last.Settled := by
  fun_induction passes total journal n o with
  | case1 total journal o => omega
  | case2 => cases hreport
  | case3 total journal n o run pass hanswer total' hchanged ih =>
    have hlt : run.optimizer.plan.size < o.plan.size := h.size_lt_of_changed hanswer hchanged
    obtain ⟨last, hlast, hsettled⟩ := ih h.becomes.optimize.ready (by omega) hreport
    rw [passList_succ_of_changed hanswer hchanged, List.getLast?_cons, hlast]
    exact ⟨last, rfl, hsettled⟩
  | case4 total journal n o run pass hanswer total' hchanged =>
    have hzero : pass.rewrites = 0 :=
      Nat.eq_zero_of_not_pos fun hpos ↦ hchanged (decide_eq_true hpos)
    rw [passList_succ_of_not_changed hanswer hchanged]
    exact ⟨o.optimize, rfl, pass, hanswer, hzero⟩

/-- If the last pass changes nothing, it has found the optimizer at rest. -/
theorem atRest_of_settled {total : Report} {journal : Journal} {n : Nat}
    (h : ∃ last ∈ (passList n o).getLast?, last.Settled) :
    (passes total journal n o).optimizer.AtRest := by
  obtain ⟨last, hlast, hsettled⟩ := h
  obtain ⟨o', -, rfl⟩ := exists_of_mem_passList (J := fun _ ↦ True) (fun _ _ ↦ trivial) trivial
    (List.mem_of_getLast? hlast)
  have hrest : o'.AtRest := atRest_iff.2 hsettled
  rw [optimizer_passes, hlast]
  show o'.optimize.optimizer.AtRest
  rwa [hrest.optimizer_optimize]

/-- **Rest is everywhere.** No rule has a match left that is wanted, at any operator. -/
theorem Ready.idle (h : o.Ready) (hrest : o.AtRest) :
    ∀ e ∈ o.entries, ∀ k, o.plan.contains k → e.Idle o.plan k := by
  intro e he k hk
  obtain ⟨ks, hks, hidle⟩ := hrest e he
  obtain ⟨order, horder⟩ := (h.scripted e he).exists_order
  rw [horder] at hks
  exact hidle k ((WalkOrder.mem_iff_of_walk h.linked hks).2 hk) hk

/-- **Rest lasts.** Calls at rest succeed without a rewrite and leave the optimizer as it is. -/
theorem AtRest.series (h : o.AtRest) (calls : List Call) :
    ∀ run ∈ o.series calls, run.Settled ∧ run.optimizer = o := by
  intro run hrun
  obtain ⟨o', c, rfl, rfl⟩ := exists_of_mem_series (J := (· = o))
    (fun o' ho' ↦ by rw [ho', h.optimizer_optimize]) rfl hrun
  obtain ⟨pass, hpass, hzero⟩ := atRest_iff.1 h
  cases c with
  | optimize => exact ⟨⟨pass, hpass, hzero⟩, h.optimizer_optimize⟩
  | optimizeUntilStable =>
    show (passes ∅ [] _ o').Settled ∧ (passes ∅ [] _ o').optimizer = o'
    cases o'.config.maxPasses.toNat with
    | zero => exact ⟨⟨∅, rfl, rfl⟩, rfl⟩
    | succ n =>
      have hchanged : pass.changed = false := by simp [Report.changed, hzero]
      rw [passes]
      simp only [hpass, hchanged]
      refine ⟨⟨_, rfl, ?_⟩, h.optimizer_optimize⟩
      rw [Report.rewrites_absorb, hzero]
      rfl

/-! ### Calls converge -/

/-- **Optimization by the rules of a document converges.** On a plan that is in order, each rewrite
takes an operator out and puts none in. If passes until nothing changes succeed, they have at most
as many rewrites as operators are gone, and there is at most one pass more than there were
operators. If so many were allowed, or if the last one changed nothing, then no rule has a match
left that is wanted, at any operator, and whatever calls are made from then on, they succeed without
a rewrite and leave the optimizer as it is. -/
theorem optimization_converges (hplan : o.plan.checkInvariants = .ok ())
    (hrules : ∀ e ∈ o.entries, e.Scripted) :
    (∀ c m before after, .applied m before after ∈ (o.call c).journal.attempts →
      before.Covers after ∧ ∃ k, before.contains k ∧ ¬after.contains k) ∧
    ∀ report, o.optimizeUntilStable.answer = .ok report →
      let final := o.optimizeUntilStable.optimizer
      o.plan.Covers final.plan ∧ report.rewrites + final.plan.size ≤ o.plan.size ∧
      report.passes ≤ o.plan.size + 1 ∧
      (o.plan.size + 1 ≤ o.config.maxPasses.toNat ∨
          (∃ last ∈ (o.passesOf .optimizeUntilStable).getLast?, last.Settled) →
        (∀ e ∈ o.entries, ∀ k, final.plan.contains k → e.Idle final.plan k) ∧
        ∀ calls, ∀ run ∈ final.series calls, run.Settled ∧ run.optimizer = final) := by
  have h : o.Ready := ⟨hplan, hrules⟩
  refine ⟨fun c m before after happlied ↦ ?_, fun report hreport ↦ ?_⟩
  · obtain ⟨e, he, p, q, hp, ht⟩ := h.exists_tries happlied
    exact (hrules e he).covers_of_applied hp ht
  intro final
  have hfinal : o.Becomes final := h.call .optimizeUntilStable
  obtain ⟨-, hcovers, -⟩ := hfinal.prunes hplan
  obtain ⟨hrewrites, hpasses⟩ := h.bounds_passes hreport
  -- Nothing was counted before the first pass.
  have hnone : (∅ : Report).rewrites = 0 := rfl
  have hnone' : (∅ : Report).passes = 0 := rfl
  rw [hnone, Nat.zero_add] at hrewrites
  rw [hnone', Nat.zero_add] at hpasses
  refine ⟨hcovers, hrewrites, hpasses, fun hcase ↦ ?_⟩
  have hlast : ∃ last ∈ (o.passesOf .optimizeUntilStable).getLast?, last.Settled :=
    hcase.elim (fun hn ↦ h.exists_settled_of_size_lt hn hreport) id
  have hrest : final.AtRest := atRest_of_settled hlast
  refine ⟨fun e he ↦ hfinal.ready.idle hrest e ?_, hrest.series⟩
  rwa [hfinal.entries]

/-- Trimming the fork takes one rewrite, and a second pass finds nothing more to do. -/
theorem optimization_converges_fork :
    trimmer.plan.checkInvariants = .ok () ∧
      ∃ report, trimmer.optimizeUntilStable.answer = .ok report ∧ report.rewrites = 1 ∧
        report.passes = 2 ∧ report.rewrites + trimmer.optimizeUntilStable.optimizer.plan.size ≤ 4 ∧
        ∀ run ∈ trimmer.optimizeUntilStable.optimizer.series [.optimize, .optimizeUntilStable],
          run.Settled ∧ run.optimizer = trimmer.optimizeUntilStable.optimizer := by
  have hplan : trimmer.plan.checkInvariants = .ok () := by decide
  have hrules : ∀ e ∈ trimmer.entries, e.Scripted := performs_ofActions fun _ _ ↦ trivial
  have hanswer : trimmer.optimizeUntilStable.answer =
      .ok ⟨2, [⟨"Split", 4, 2, 1, 1⟩], []⟩ := by cbv
  obtain ⟨-, hbounds⟩ := optimization_converges hplan hrules
  obtain ⟨-, hrewrites, -, hrest⟩ := hbounds _ hanswer
  refine ⟨hplan, _, hanswer, rfl, rfl, hrewrites, (hrest (.inl ?_)).2 _⟩
  decide

end Optimizer

end Dataflow
