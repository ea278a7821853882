import Dataflow.Proofs.FirstOccurrences
import Dataflow.Proofs.Series
import Mathlib.Algebra.GroupWithZero.Nat

/-!
# What is counted for whom

The report of a single pass has a row for every rule, in the order of registration. Reports of
several passes are added up by `Report.absorb`, which puts rows together by the names of their
rules. So the rows of a sum belong to names: by `RuleReport.foldl_addTo` there is one for each name,
where it occurs first, with the counters of all rows of that name.

For rules with different names this is one row for each rule. Two rules of one name share a row, and
it cannot be told any more what each of them did (`Optimizer.rows_of_stable`). What all rows have of
a counter together is not affected (`Report.total_foldl_absorb`).
-/

namespace Dataflow

/-! ### Adding rows up -/

namespace RuleReport

/-- One row with the counters of several. -/
def sum (name : String) (rows : List RuleReport) : RuleReport :=
  rows.foldl add ⟨name, 0, 0, 0, 0⟩

theorem sum_concat (name : String) (rows : List RuleReport) (row : RuleReport) :
    sum name (rows ++ [row]) = (sum name rows).add row :=
  List.foldl_concat ..

theorem name_sum (name : String) (rows : List RuleReport) : (sum name rows).name = name := by
  induction rows using List.reverseRecOn with
  | nil => rfl
  | append_singleton rows row ih => rwa [sum_concat]

theorem sum_singleton (row : RuleReport) : sum row.name [row] = row := by
  simp [sum, add]

/-- One row for each name that occurs among the rows, in the order of first occurrence. -/
def byName (rows : List RuleReport) : List RuleReport :=
  (rows.map (·.name)).eraseDups.map fun name ↦ sum name (rows.filter (·.name = name))

theorem names_byName (rows : List RuleReport) :
    (byName rows).map (·.name) = (rows.map (·.name)).eraseDups := by
  rw [byName, List.map_map]
  simp only [Function.comp_def, name_sum, List.map_id']

theorem filter_name_eq_nil {rows : List RuleReport} {name : String}
    (h : name ∉ rows.map (·.name)) : rows.filter (·.name = name) = [] :=
  List.filter_eq_nil_iff.2 fun row hrow he ↦
    h (List.mem_map.2 ⟨row, hrow, of_decide_eq_true he⟩)

/-- A row is added where there is one of its name, and at the end if there is none. -/
theorem addTo_map {f : String → RuleReport} (hf : ∀ name, (f name).name = name)
    {names : List String} (hnames : names.Nodup) (row : RuleReport) :
    row.addTo (names.map f) =
      names.map (fun name ↦ if name = row.name then (f name).add row else f name) ++
        if row.name ∈ names then [] else [row] := by
  induction names with
  | nil => rfl
  | cons name names ih =>
    obtain ⟨hname, hnames⟩ := List.nodup_cons.1 hnames
    rw [List.map_cons, List.map_cons, addTo, hf]
    by_cases h : name = row.name
    · -- No other row has the name, so the rest stays as it is.
      have hrest : names.map (fun n ↦ if n = row.name then (f n).add row else f n) =
          names.map f := List.map_congr_left fun n hn ↦
        if_neg fun he : n = row.name ↦ hname ((h.trans he.symm) ▸ hn)
      rw [if_pos h, if_pos h, hrest, if_pos (h ▸ List.mem_cons_self ..), List.append_nil]
    · have hmem : row.name ∈ name :: names ↔ row.name ∈ names := by simp [Ne.symm h]
      rw [if_neg h, if_neg h, ih hnames, List.cons_append]
      simp only [hmem]

theorem addTo_byName (rows : List RuleReport) (row : RuleReport) :
    row.addTo (byName rows) = byName (rows ++ [row]) := by
  have hsum : ∀ name, sum name ((rows ++ [row]).filter (·.name = name)) =
      if name = row.name then (sum name (rows.filter (·.name = name))).add row
      else sum name (rows.filter (·.name = name)) := fun name ↦ by
    by_cases h : row.name = name
    · rw [List.filter_append, if_pos h.symm, ← sum_concat]
      simp [h]
    · rw [List.filter_append, if_neg (Ne.symm h)]
      simp [h]
  rw [byName, addTo_map (fun _ ↦ name_sum ..) (nodup_eraseDups _), byName, List.map_append,
    List.map_singleton, eraseDups_concat]
  simp only [List.mem_eraseDups, hsum]
  split
  · rw [List.append_nil]
  next h =>
    rw [List.map_append, List.map_singleton, if_pos rfl, filter_name_eq_nil h]
    congr 1
    simp [sum, add]

/-- **Rows that are added up one after the other are put together by name.** -/
theorem foldl_addTo (rows : List RuleReport) :
    rows.foldl (fun rows row ↦ row.addTo rows) [] = byName rows := by
  induction rows using List.reverseRecOn with
  | nil => rfl
  | append_singleton rows row ih =>
    rw [List.foldl_append, ih, List.foldl_cons, List.foldl_nil, addTo_byName]

/-- One row for each of the rules of those names, with the counters that the reports of several
passes have in its place. -/
def perRule (names : List String) (reports : List Report) : List RuleReport :=
  names.zipIdx.map fun (name, i) ↦ sum name (reports.filterMap (·.rules[i]?))

/-- If all rows have different names, the name of a row is as good as its place. -/
theorem filter_name_eq {rows : List RuleReport} (h : (rows.map (·.name)).Nodup) {i : Nat}
    {name : String} (hi : (rows.map (·.name))[i]? = some name) :
    rows.filter (·.name = name) = rows[i]?.toList := by
  induction rows generalizing i with
  | nil => simp at hi
  | cons row rows ih =>
    obtain ⟨hrow, hrows⟩ := List.nodup_cons.1 h
    cases i with
    | zero =>
      obtain rfl : row.name = name := by simpa using hi
      rw [List.filter_cons, if_pos (decide_eq_true rfl), filter_name_eq_nil hrow]
      rfl
    | succ i =>
      have hi : (rows.map (·.name))[i]? = some name := hi
      have hne : row.name ≠ name := by
        rintro rfl
        exact hrow (List.mem_of_getElem? hi)
      rw [List.filter_cons_of_neg (by simpa using hne), ih hrows hi]
      rfl

section Reports

variable {names : List String} {reports : List Report}
  (hreports : ∀ r ∈ reports, r.rules.map (·.name) = names)

include hreports

/-- Names that return in every report occur first in the first one. -/
theorem eraseDups_names (hne : reports ≠ []) :
    ((reports.flatMap (·.rules)).map (·.name)).eraseDups = names.eraseDups := by
  obtain ⟨r, reports, rfl⟩ := List.exists_cons_of_ne_nil hne
  obtain ⟨hr, hreports⟩ := List.forall_mem_cons.1 hreports
  rw [List.flatMap_cons, List.map_append, hr]
  refine eraseDups_append_of_subset fun name hname ↦ ?_
  obtain ⟨row, hrow, rfl⟩ := List.mem_map.1 hname
  obtain ⟨s, hs, hrow⟩ := List.mem_flatMap.1 hrow
  exact hreports s hs ▸ List.mem_map_of_mem hrow

/-- **Of rules with different names each has a row of its own.** -/
theorem byName_eq_perRule (hne : reports ≠ []) (hnames : names.Nodup) :
    byName (reports.flatMap (·.rules)) = perRule names reports := by
  have hrows : ∀ name i, (name, i) ∈ names.zipIdx →
      (reports.flatMap (·.rules)).filter (·.name = name) = reports.filterMap (·.rules[i]?) := by
    intro name i hi
    rw [List.filter_flatMap, List.filterMap_eq_flatMap_toList]
    refine List.flatMap_congr fun r hr ↦ ?_
    have hr := hreports r hr
    exact filter_name_eq (hr.symm ▸ hnames) (hr.symm ▸ List.mem_zipIdx_iff_getElem?.1 hi)
  calc byName (reports.flatMap (·.rules))
    _ = (names.zipIdx.map (·.1)).map fun name ↦
          sum name ((reports.flatMap (·.rules)).filter (·.name = name)) := by
      rw [byName, eraseDups_names hreports hne, eraseDups_eq_self_iff.2 hnames,
        List.zipIdx_map_fst]
    _ = perRule names reports := by
      rw [List.map_map, perRule]
      exact List.map_congr_left fun x hx ↦ congrArg (sum x.1) (hrows x.1 x.2 hx)

/-- Names that return leave fewer rows than there are rules. -/
theorem byName_eq_perRule_iff (hne : reports ≠ []) :
    byName (reports.flatMap (·.rules)) = perRule names reports ↔ names.Nodup := by
  refine ⟨fun h ↦ ?_, byName_eq_perRule hreports hne⟩
  have hlength := congrArg List.length h
  rw [byName, eraseDups_names hreports hne, perRule, List.length_map, List.length_map,
    List.length_zipIdx] at hlength
  exact eraseDups_eq_self_iff.1 ((eraseDups_sublist names).eq_of_length hlength)

end Reports

/-- One report has one row for each rule. -/
theorem perRule_singleton (r : Report) : perRule (r.rules.map (·.name)) [r] = r.rules := by
  refine List.ext_getElem (by simp [perRule]) fun i h₁ h₂ ↦ ?_
  simp [perRule, sum_singleton, h₂]

end RuleReport

/-! ### Totals

Which rows are put together makes no difference to what all rows have of a counter. -/

/-- What all rows together have of a counter. -/
def RuleReport.total (count : RuleReport → Nat) (rows : List RuleReport) : Nat :=
  (rows.map count).sum

section Totals

variable {count : RuleReport → Nat} (hadd : ∀ a b : RuleReport, count (a.add b) = count a + count b)

include hadd

theorem RuleReport.total_addTo (row : RuleReport) (rows : List RuleReport) :
    total count (row.addTo rows) = total count rows + count row := by
  induction rows with
  | nil => exact Nat.add_comm ..
  | cons mine rows ih =>
    rw [addTo]
    split
    · simp only [total, List.map_cons, List.sum_cons, hadd]
      omega
    · simp only [total, List.map_cons, List.sum_cons] at ih ⊢
      omega

theorem RuleReport.total_foldl_addTo (rows rows' : List RuleReport) :
    total count (rows'.foldl (fun rows row ↦ row.addTo rows) rows) =
      total count rows + total count rows' := by
  induction rows' generalizing rows with
  | nil => rfl
  | cons row rows' ih =>
    rw [List.foldl_cons, ih, total_addTo hadd]
    simp only [total, List.map_cons, List.sum_cons]
    omega

/-- **Reports that are added up add up in every counter.** -/
theorem Report.total_foldl_absorb (total : Report) (reports : List Report) :
    RuleReport.total count (reports.foldl absorb total).rules =
      RuleReport.total count total.rules +
        (reports.map fun r ↦ RuleReport.total count r.rules).sum := by
  induction reports generalizing total with
  | nil => rfl
  | cons r reports ih =>
    rw [List.foldl_cons, ih, absorb, RuleReport.total_foldl_addTo hadd, List.map_cons,
      List.sum_cons, Nat.add_assoc]

end Totals

namespace Report

theorem rewrites_eq_total (r : Report) : r.rewrites = RuleReport.total (·.applied) r.rules := by
  rw [rewrites, RuleReport.total, List.sum_eq_foldr, List.foldr_map]

theorem rewrites_absorb (r other : Report) :
    (r.absorb other).rewrites = r.rewrites + other.rewrites := by
  simp only [rewrites_eq_total]
  exact RuleReport.total_foldl_addTo (fun _ _ ↦ rfl) _ _

/-- Reports of one pass each, added up. -/
theorem foldl_absorb (total : Report) {reports : List Report} (h : ∀ r ∈ reports, r.passes = 1) :
    reports.foldl absorb total =
      { passes := total.passes + reports.length
        rules := (reports.flatMap (·.rules)).foldl (fun rows row ↦ row.addTo rows) total.rules
        traces := total.traces ++ reports.flatMap (·.traces) } := by
  induction reports generalizing total with
  | nil => simp
  | cons r reports ih =>
    obtain ⟨hr, h⟩ := List.forall_mem_cons.1 h
    rw [List.foldl_cons, ih _ h]
    simp [absorb, hr, Nat.add_comm, Nat.add_left_comm]

end Report

/-! ### Rows of a pass -/

variable {σ : Type}

namespace Optimizer

variable {o : Optimizer σ}

theorem ruleNames_optimize (o : Optimizer σ) : o.optimize.optimizer.ruleNames = o.ruleNames :=
  Entry.names_runAll o.entries o.plan

theorem names_of_optimize {report : Report} (h : o.optimize.answer = .ok report) :
    report.rules.map (·.name) = o.ruleNames := by
  obtain ⟨hfailure, rfl⟩ := optimize_answer_eq_ok_iff.1 h
  rw [Report.ofJournal, List.map_map]
  exact Entry.names_journal hfailure

/-- Passes that succeed add up their reports. -/
theorem exists_reports_of_passes {total report : Report} {journal : Journal} {n : Nat}
    (h : (passes total journal n o).answer = .ok report) :
    ∃ reports : List Report, (passList n o).map (·.answer) = reports.map .ok ∧
      report = reports.foldl Report.absorb total := by
  fun_induction passes total journal n o with
  | case1 total journal o => exact ⟨[], rfl, (Except.ok.inj h).symm⟩
  | case2 => cases h
  | case3 total journal n o run r hanswer total' hchanged ih =>
    obtain ⟨reports, hreports, hreport⟩ := ih h
    refine ⟨r :: reports, ?_, hreport⟩
    rw [passList_succ_of_changed hanswer hchanged, List.map_cons, hreports, hanswer, List.map_cons]
  | case4 total journal n o run r hanswer total' hchanged =>
    refine ⟨[r], ?_, (Except.ok.inj h).symm⟩
    rw [passList_succ_of_not_changed hanswer hchanged]
    exact congrArg ([·]) hanswer

theorem passList_ne_nil (hpasses : 0 < o.config.maxPasses) :
    passList o.config.maxPasses.toNat o ≠ [] := by
  have hpos : 0 < o.config.maxPasses.toNat := UInt64.lt_iff_toNat_lt.1 hpasses
  obtain ⟨n, hn⟩ := Nat.exists_eq_succ_of_ne_zero (Nat.ne_of_gt hpos)
  rw [hn, passList]
  exact List.cons_ne_nil _ _

theorem exists_report_of_single (hone : o.config.maxPasses = 1) {reports : List Report}
    (h : (passList o.config.maxPasses.toNat o).map (·.answer) = reports.map .ok) :
    ∃ r, reports = [r] ∧ o.optimize.answer = .ok r := by
  have hlist : passList 1 o = [o.optimize] := by
    rw [passList]
    split <;> rfl
  rw [hone, show (1 : UInt64).toNat = 1 from rfl, hlist] at h
  obtain ⟨r, hr, hanswer⟩ := List.map_eq_singleton_iff.1 h.symm
  exact ⟨r, hr, hanswer.symm⟩

/-- What the reports of the passes have in common. -/
theorem report_of_passList {n : Nat} {reports : List Report}
    (h : (passList n o).map (·.answer) = reports.map .ok) :
    ∀ r ∈ reports, r.rules.map (·.name) = o.ruleNames ∧ r.passes = 1 := by
  intro r hr
  obtain ⟨run, hrun, hanswer⟩ := List.mem_map.1 (h.symm ▸ List.mem_map_of_mem hr)
  obtain ⟨o', ho', rfl⟩ := exists_of_mem_passList (J := fun o' ↦ o'.ruleNames = o.ruleNames)
    (fun o' ho' ↦ (ruleNames_optimize o').trans ho') rfl hrun
  exact ⟨(names_of_optimize hanswer).trans ho', passes_of_optimize hanswer⟩

/-- **What several passes report.** The report is the sum of those of its passes, and its rows stand
for the different names of the rules, in the order in which they occur first. There is a row for
each rule, with the sums of its own counters, only if no two rules have one name; and if one pass is
made, only then does it report what the pass reports. -/
theorem rows_of_stable {report : Report} (h : o.optimizeUntilStable.answer = .ok report)
    (hpasses : 0 < o.config.maxPasses) :
    ∃ reports : List Report,
      (o.passesOf .optimizeUntilStable).map (·.answer) = reports.map .ok ∧
      report = ⟨reports.length, RuleReport.byName (reports.flatMap (·.rules)),
        reports.flatMap (·.traces)⟩ ∧
      report.rules.map (·.name) = o.ruleNames.eraseDups ∧
      (report.rules = RuleReport.perRule o.ruleNames reports ↔ o.ruleNames.Nodup) ∧
      (o.config.maxPasses = 1 → (o.optimize.answer = .ok report ↔ o.ruleNames.Nodup)) := by
  obtain ⟨reports, hreports, hreport⟩ := exists_reports_of_passes h
  have hof := report_of_passList hreports
  have hnames := fun r hr ↦ (hof r hr).1
  have hne : reports ≠ [] := by
    rintro rfl
    exact passList_ne_nil hpasses (List.map_eq_nil_iff.1 hreports)
  obtain rfl : report = ⟨reports.length, RuleReport.byName (reports.flatMap (·.rules)),
      reports.flatMap (·.traces)⟩ := by
    rw [hreport, Report.foldl_absorb ∅ fun r hr ↦ (hof r hr).2, ← RuleReport.foldl_addTo]
    exact congrArg (Report.mk · _ _) (Nat.zero_add _)
  have hiff := RuleReport.byName_eq_perRule_iff hnames hne
  refine ⟨reports, hreports, rfl, ?_, hiff, fun hone ↦ ?_⟩
  · rw [RuleReport.names_byName, RuleReport.eraseDups_names hnames hne]
  · -- One report has its own rows in their places, so it is a matter of the rows alone.
    obtain ⟨r, rfl, hr⟩ := exists_report_of_single hone hreports
    obtain ⟨hrules, hpass⟩ := hof r (List.mem_singleton_self r)
    rw [← hiff, ← hrules, RuleReport.perRule_singleton, hr]
    rcases r with ⟨n, rules, traces⟩
    obtain rfl : n = 1 := hpass
    simp [eq_comm]

/-- An optimizer for a plan of one source, with rules of these names. Each finds the source and does
not want it. -/
def onlookers (names : List String) : Optimizer Unit where
  plan := (∅ : Plan).put ⟨⟨"flow", 0⟩, "read", .source, false, false⟩
  entries := names.map fun name ↦ {
    rule :=
      { name
        nodes := [.any]
        edges := []
        required := [true]
        wellFormed := Rule.wellFormed_of_fault?
          (show Rule.fault? name [.any] [] [true] = none from rfl) }
    transformer :=
      { walker := fun _ ↦ ⟨"keys", fun p ↦ .ok p.keys⟩
        check := fun _ _ _ ↦ false
        transform := fun _ p _ ↦ (⟨.ok (), p⟩, ()) }
    state := () }
  config := { maxPasses := 1, traceRewrites := false }

/-- Two rules with different names keep a row each. -/
theorem rows_of_stable_onlookers :
    (onlookers ["a", "b"]).optimizeUntilStable.answer =
        .ok ⟨1, [⟨"a", 1, 1, 1, 0⟩, ⟨"b", 1, 1, 1, 0⟩], []⟩ ∧
      0 < (onlookers ["a", "b"]).config.maxPasses ∧
      (onlookers ["a", "b"]).optimize.answer =
        .ok ⟨1, [⟨"a", 1, 1, 1, 0⟩, ⟨"b", 1, 1, 1, 0⟩], []⟩ := by
  have h : (onlookers ["a", "b"]).optimizeUntilStable.answer =
      .ok ⟨1, [⟨"a", 1, 1, 1, 0⟩, ⟨"b", 1, 1, 1, 0⟩], []⟩ := by decide +kernel
  have hpasses : 0 < (onlookers ["a", "b"]).config.maxPasses := by decide
  obtain ⟨reports, -, -, -, -, hone⟩ := rows_of_stable h hpasses
  exact ⟨h, hpasses, (hone rfl).2 (by decide)⟩

/-- Two rules of one name share a row, although only one pass is made and that pass counts them
apart. -/
theorem shared_row_of_one_name :
    (onlookers ["a", "a"]).optimizeUntilStable.answer = .ok ⟨1, [⟨"a", 2, 2, 2, 0⟩], []⟩ ∧
      (onlookers ["a", "a"]).optimize.answer =
        .ok ⟨1, [⟨"a", 1, 1, 1, 0⟩, ⟨"a", 1, 1, 1, 0⟩], []⟩ := by
  decide +kernel

end Optimizer

end Dataflow
