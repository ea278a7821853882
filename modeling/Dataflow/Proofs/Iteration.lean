import Dataflow.Proofs.Tallies
import Dataflow.Proofs.Validation
import Mathlib.Order.Bounds.Basic

/-!
# Passes until nothing changes

Making passes until one changes nothing is no more than calling for single passes, one after the
other, and adding up what they report. `Optimizer.nthPass` is what single calls come to if nobody
ever stops calling. The number of them that are made is the least of two: as many as are allowed,
and up to the first that applies no rewrite (`Optimizer.isLeast_passCount`). If all of these
succeed, the reports add up and the optimizer is what they leave; if not, everything ends with the
first that fails, and is as it is left there.

This rests on nothing that rules, walkers or transformers do.
-/

namespace Dataflow

variable {σ : Type}

/-- The run applies no rewrite, whatever it answers. -/
def Run.Quiet (run : Run σ) : Prop :=
  run.journal.attempts.countP Attempt.isApplied = 0

instance (run : Run σ) : Decidable run.Quiet :=
  inferInstanceAs (Decidable (_ = 0))

namespace Optimizer

/-- The optimizer after `n` single passes, whatever they answer. -/
def after : Nat → Optimizer σ → Optimizer σ
  | 0, o => o
  | n + 1, o => after n o.optimize.optimizer

/-- The single passes that are made one after the other, numbered from zero. -/
def nthPass (o : Optimizer σ) (i : Nat) : Run σ :=
  (o.after i).optimize

/-- How many passes are made if `n` are allowed: none after the first that applies no rewrite. -/
def passCount : Nat → Optimizer σ → Nat
  | 0, _ => 0
  | n + 1, o => if o.optimize.Quiet then 1 else passCount n o.optimize.optimizer + 1

variable {o : Optimizer σ} {n : Nat}

/-! ### The number of passes -/

theorem passCount_of_quiet (h : o.optimize.Quiet) : passCount (n + 1) o = 1 :=
  if_pos h

theorem passCount_of_not_quiet (h : ¬o.optimize.Quiet) :
    passCount (n + 1) o = passCount n o.optimize.optimizer + 1 :=
  if_neg h

/-- **When passes end.** By induction on the passes that are allowed: unless the first is quiet,
what is said of the others is said with the numbers moved on by one. -/
theorem isLeast_passCount (n : Nat) (o : Optimizer σ) :
    IsLeast (insert n {m | ∃ i, m = i + 1 ∧ (o.nthPass i).Quiet}) (passCount n o) := by
  induction n generalizing o with
  | zero => exact ⟨.inl rfl, fun _ _ ↦ Nat.zero_le _⟩
  | succ n ih =>
    by_cases h : o.optimize.Quiet
    · rw [passCount_of_quiet h]
      refine ⟨.inr ⟨0, rfl, h⟩, ?_⟩
      rintro m (rfl | ⟨i, rfl, -⟩) <;> exact Nat.le_add_left 1 _
    · rw [passCount_of_not_quiet h]
      obtain ⟨hmem, hle⟩ := ih o.optimize.optimizer
      refine ⟨?_, ?_⟩
      · rcases hmem with hn | ⟨i, hi, hquiet⟩
        · exact .inl (congrArg (· + 1) hn)
        · exact .inr ⟨i + 1, congrArg (· + 1) hi, hquiet⟩
      · rintro m (rfl | ⟨i, rfl, hquiet⟩)
        · exact Nat.succ_le_succ (hle (.inl rfl))
        · cases i with
          | zero => exact absurd hquiet h
          | succ i => exact Nat.succ_le_succ (hle (.inr ⟨i, rfl, hquiet⟩))

/-! ### What passes come to -/

theorem quiet_iff_of_optimize {report : Report} (h : o.optimize.answer = .ok report) :
    o.optimize.Quiet ↔ ¬report.changed = true := by
  rw [Run.Quiet, ← rewrites_of_optimize h]
  simp [Report.changed]

/-- Some pass is made if any are allowed. -/
theorem exists_passCount_succ (n : Nat) (o : Optimizer σ) : ∃ k, passCount (n + 1) o = k + 1 := by
  rw [passCount]
  split <;> exact ⟨_, rfl⟩

/-- The reports of all passes, that of the first apart. -/
theorem exists_reports_of_succ {k : Nat} {reports : List Report}
    (h : (List.range (k + 1)).map (fun i ↦ (o.nthPass i).answer) = reports.map .ok) :
    ∃ r rest, reports = r :: rest ∧ o.optimize.answer = .ok r ∧
      (List.range k).map (fun i ↦ (o.optimize.optimizer.nthPass i).answer) = rest.map .ok := by
  rw [List.range_succ_eq_map, List.map_cons, List.map_map] at h
  obtain ⟨r, rest, rfl, hr, hrest⟩ := List.map_eq_cons_iff.1 h.symm
  exact ⟨r, rest, rfl, hr.symm, hrest.symm⟩

theorem passes_of_nthPass {k : Nat} {reports : List Report}
    (h : (List.range k).map (fun i ↦ (o.nthPass i).answer) = reports.map .ok) :
    ∀ r ∈ reports, r.passes = 1 := by
  intro r hr
  obtain ⟨i, -, hi⟩ := List.mem_map.1 (h.symm ▸ List.mem_map_of_mem hr)
  exact passes_of_optimize hi

/-- **If no pass fails,** the reports are added up, and the last pass leaves what is left. -/
theorem passes_of_reports (total : Report) (journal : Journal) (n : Nat) (o : Optimizer σ) :
    ∀ reports : List Report,
      (List.range (passCount n o)).map (fun i ↦ (o.nthPass i).answer) = reports.map .ok →
      (passes total journal n o).answer = .ok (reports.foldl Report.absorb total) ∧
        (passes total journal n o).optimizer = o.after (passCount n o) := by
  fun_induction passes total journal n o with
  | case1 total journal o =>
    intro reports h
    obtain rfl : reports = [] := List.map_eq_nil_iff.1 h.symm
    exact ⟨rfl, rfl⟩
  | case2 total journal n o run e hanswer =>
    intro reports h
    obtain ⟨k, hk⟩ := exists_passCount_succ n o
    obtain ⟨r, -, -, hr, -⟩ := exists_reports_of_succ (hk ▸ h)
    cases hanswer.symm.trans hr
  | case3 total journal n o run r hanswer total' hchanged ih =>
    intro reports h
    have hcount : passCount (n + 1) o = passCount n run.optimizer + 1 :=
      passCount_of_not_quiet fun hquiet ↦ (quiet_iff_of_optimize hanswer).1 hquiet hchanged
    obtain ⟨r', reports, rfl, hr, hreports⟩ := exists_reports_of_succ (hcount ▸ h)
    obtain rfl : r = r' := Except.ok.inj (hanswer.symm.trans hr)
    rw [hcount]
    exact ih reports hreports
  | case4 total journal n o run r hanswer total' hchanged =>
    intro reports h
    have hcount : passCount (n + 1) o = 1 :=
      passCount_of_quiet ((quiet_iff_of_optimize hanswer).2 hchanged)
    obtain ⟨r', reports, rfl, hr, hreports⟩ := exists_reports_of_succ (hcount ▸ h)
    obtain rfl : r = r' := Except.ok.inj (hanswer.symm.trans hr)
    obtain rfl : reports = [] := List.map_eq_nil_iff.1 hreports.symm
    rw [hcount]
    exact ⟨rfl, rfl⟩

/-- **The first pass that fails is the last.** -/
theorem passes_of_error (total : Report) (journal : Journal) (n : Nat) (o : Optimizer σ) :
    ∀ i e, i < passCount n o → (∀ j < i, ∃ r, (o.nthPass j).answer = .ok r) →
      (o.nthPass i).answer = .error e →
      (passes total journal n o).answer = .error e ∧
        (passes total journal n o).optimizer = o.after (i + 1) := by
  fun_induction passes total journal n o with
  | case1 total journal o => exact fun i e hi ↦ absurd hi (Nat.not_lt_zero i)
  | case2 total journal n o run e' hanswer =>
    intro i e hi hok he
    cases i with
    | zero => exact ⟨hanswer.symm.trans he, rfl⟩
    | succ i =>
      obtain ⟨r, hr⟩ := hok 0 (Nat.zero_lt_succ i)
      cases hanswer.symm.trans hr
  | case3 total journal n o run r hanswer total' hchanged ih =>
    intro i e hi hok he
    have hcount : passCount (n + 1) o = passCount n run.optimizer + 1 :=
      passCount_of_not_quiet fun hquiet ↦ (quiet_iff_of_optimize hanswer).1 hquiet hchanged
    cases i with
    | zero => cases hanswer.symm.trans he
    | succ i =>
      have hi : i + 1 < passCount n run.optimizer + 1 := hcount ▸ hi
      exact ih i e (Nat.lt_of_succ_lt_succ hi) (fun j hj ↦ hok (j + 1) (Nat.succ_lt_succ hj)) he
  | case4 total journal n o run r hanswer total' hchanged =>
    intro i e hi hok he
    have hi : i < 1 := passCount_of_quiet ((quiet_iff_of_optimize hanswer).2 hchanged) ▸ hi
    obtain rfl : i = 0 := Nat.lt_one_iff.1 hi
    cases hanswer.symm.trans he

/-! ### Passes until nothing changes -/

/-- **Passes until nothing changes are single passes.** Let `k` be the least of the number of passes
that are allowed and the number, counted from one, of the first pass that applies no rewrite. If the
first `k` passes succeed, the call succeeds and leaves the optimizer, with its plan and the states
of its transformers, as they do. It reports `k` passes, and rewrites, anchors, matches, rejections
and traces as they report them, taken together. If one of the `k` passes fails, the call ends with
the first that does. This also covers rules of one name, and the case that no pass is allowed. -/
theorem stable_iterates_passes (o : Optimizer σ) :
    ∃ k, IsLeast (insert o.config.maxPasses.toNat {m | ∃ i, m = i + 1 ∧ (o.nthPass i).Quiet}) k ∧
      (∀ reports : List Report,
        (List.range k).map (fun i ↦ (o.nthPass i).answer) = reports.map .ok →
        ∃ report, o.optimizeUntilStable.answer = .ok report ∧
          o.optimizeUntilStable.optimizer = o.after k ∧
          report.passes = k ∧
          report.rewrites = (reports.map (·.rewrites)).sum ∧
          (∀ count ∈ [RuleReport.anchors, RuleReport.matched, RuleReport.rejected],
            RuleReport.total count report.rules =
              (reports.map fun r ↦ RuleReport.total count r.rules).sum) ∧
          report.traces = reports.flatMap (·.traces)) ∧
      ∀ i < k, ∀ e, (∀ j < i, ∃ r, (o.nthPass j).answer = .ok r) →
        (o.nthPass i).answer = .error e →
        o.optimizeUntilStable.answer = .error e ∧
          o.optimizeUntilStable.optimizer = o.after (i + 1) := by
  refine ⟨_, isLeast_passCount _ o, fun reports hreports ↦ ?_, fun i hi e ↦
    passes_of_error ∅ [] _ o i e hi⟩
  obtain ⟨hanswer, hoptimizer⟩ := passes_of_reports ∅ [] _ o reports hreports
  have hone := passes_of_nthPass hreports
  have hlength : passCount o.config.maxPasses.toNat o = reports.length := by
    simpa using congrArg List.length hreports
  refine ⟨_, hanswer, hoptimizer, ?_, ?_, fun count hcount ↦ ?_, ?_⟩
  · rw [Report.foldl_absorb ∅ hone, hlength]
    exact Nat.zero_add _
  · simp only [Report.rewrites_eq_total]
    exact (Report.total_foldl_absorb (fun _ _ ↦ rfl) ∅ reports).trans (Nat.zero_add _)
  · have hadd : ∀ a b : RuleReport, count (a.add b) = count a + count b := by
      simp only [List.mem_cons, List.not_mem_nil, or_false] at hcount
      rcases hcount with rfl | rfl | rfl <;> exact fun _ _ ↦ rfl
    exact (Report.total_foldl_absorb hadd ∅ reports).trans (Nat.zero_add _)
  · rw [Report.foldl_absorb ∅ hone]
    exact List.nil_append _

/-- An optimizer for the fork with two rules of one name. Each takes out the first operator that
there is, and its transformer counts how often it has done so; after `patience` times it gives
up. -/
def nibbler (patience : Nat) : Optimizer Nat where
  plan := Plan.fork
  entries := List.replicate 2 {
    rule :=
      { name := "nibble"
        nodes := [.any]
        edges := []
        required := [true]
        wellFormed := Rule.wellFormed_of_fault?
          (show Rule.fault? "nibble" [.any] [] [true] = none from rfl) }
    transformer :=
      { walker := fun _ ↦ ⟨"first", fun p ↦ .ok (p.keys.take 1)⟩
        check := fun _ _ _ ↦ true
        transform := fun n p m ↦
          if n = patience then (⟨.error (.transform "nibble" "had enough"), p⟩, n)
          else (⟨.ok (), (p.remove m.anchor).plan⟩, n + 1) }
    state := 0 }
  config := { maxPasses := 16, traceRewrites := false }

/-- In two passes the nibblers take out all four operators, and a third pass finds nothing. They
share a row, but what it counts is what the three passes count. If they give up after the first
time, the second pass fails, and two operators are left. -/
theorem stable_iterates_passes_nibbler :
    (∃ report, (nibbler 2).optimizeUntilStable.answer = .ok report ∧ report.passes = 3 ∧
        report.rewrites = 4 ∧ RuleReport.total (·.anchors) report.rules = 4 ∧
        (nibbler 2).optimizeUntilStable.optimizer.plan = ∅) ∧
      (nibbler 1).optimizeUntilStable.answer = .error (.transform "nibble" "had enough") ∧
      (nibbler 1).optimizeUntilStable.optimizer.plan.keys = [⟨"flow", 2⟩, ⟨"flow", 3⟩] := by
  constructor
  · have hcount : passCount (nibbler 2).config.maxPasses.toNat (nibbler 2) = 3 := by decide +kernel
    obtain ⟨k, hk, hok, -⟩ := stable_iterates_passes (nibbler 2)
    obtain rfl : k = 3 := hcount ▸ hk.unique (isLeast_passCount _ _)
    let row (n : Nat) : RuleReport := ⟨"nibble", n, n, 0, n⟩
    let pass (n : Nat) : Report := ⟨1, [row n, row n], []⟩
    have hpasses : (List.range 3).map (fun i ↦ ((nibbler 2).nthPass i).answer) =
        [pass 1, pass 1, pass 0].map .ok := by decide +kernel
    obtain ⟨report, hanswer, hoptimizer, hp, hr, htotals, -⟩ := hok _ hpasses
    refine ⟨report, hanswer, hp, hr, htotals _ (List.mem_cons_self ..), ?_⟩
    rw [hoptimizer]
    decide +kernel
  · have hcount : passCount (nibbler 1).config.maxPasses.toNat (nibbler 1) = 2 := by decide +kernel
    obtain ⟨k, hk, -, herror⟩ := stable_iterates_passes (nibbler 1)
    obtain rfl : k = 2 := hcount ▸ hk.unique (isLeast_passCount _ _)
    have hfirst : ∀ j < 1, ∃ r, ((nibbler 1).nthPass j).answer = .ok r := fun j hj ↦ by
      obtain rfl : j = 0 := Nat.lt_one_iff.1 hj
      exact ⟨⟨1, [⟨"nibble", 1, 1, 0, 1⟩, ⟨"nibble", 1, 1, 0, 1⟩], []⟩, by decide +kernel⟩
    have hsecond : ((nibbler 1).nthPass 1).answer =
        .error (.transform "nibble" "had enough") := by decide +kernel
    obtain ⟨hanswer, hoptimizer⟩ := herror 1 (by decide) _ hfirst hsecond
    refine ⟨hanswer, ?_⟩
    rw [hoptimizer]
    decide +kernel

end Optimizer

end Dataflow
