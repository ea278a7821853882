import Dataflow.Proofs.Iteration
import Mathlib.Data.List.Chain

/-!
# Traces are a chronicle

A recorded rewrite has the renderings of two plans and says nothing of where they come from.
`Chronicle p ts q` says that the traces `ts` tell of rewrites that lead from the plan `p` to the
plan `q`, one after the other and with nothing in between. The traces of every call that succeeds
are of this kind, because attempts other than rewrites leave the plan as it is, and an attempt that
fails ends the call.

`Report.Faithful` is what is carried through a call, from one anchor to the next, from one rule to
the next and from one pass to the next.
-/

namespace Dataflow

variable {σ : Type} {trace : Bool} {notes : Notes} {traces : List RewriteTrace}

/-- **The traces tell of rewrites** that lead from one plan to another. -/
inductive Chronicle : Plan → List RewriteTrace → Plan → Prop
  | nil (p : Plan) : Chronicle p [] p
  | cons {p q r : Plan} {ts : List RewriteTrace} (rule : String) (anchor : Key)
    (h : Chronicle q ts r) : Chronicle p (⟨rule, anchor, p.render, q.render⟩ :: ts) r

namespace Chronicle

variable {p q r : Plan} {ts us : List RewriteTrace}

theorem append (h : Chronicle p ts q) (h' : Chronicle q us r) : Chronicle p (ts ++ us) r := by
  induction h with
  | nil p => exact h'
  | cons rule anchor _ ih => exact .cons rule anchor (ih h')

/-- A chronicle of nothing leads nowhere. -/
theorem eq_of_nil (h : Chronicle p [] q) : q = p := by
  cases h with
  | nil => rfl

theorem before_of_head? (h : Chronicle p ts q) : ∀ t ∈ ts.head?, t.before = p.render := by
  cases h with
  | nil => exact nofun
  | cons => exact fun t ht ↦ Option.some.inj ht ▸ rfl

theorem after_of_getLast? (h : Chronicle p ts q) : ∀ t ∈ ts.getLast?, t.after = q.render := by
  induction h with
  | nil => exact nofun
  | @cons p q r ts rule anchor h ih =>
    intro t ht
    rw [List.getLast?_cons] at ht
    cases hlast : ts.getLast? with
    | some u =>
      rw [hlast] at ht
      exact ih t (hlast.trans ht)
    | none =>
      rw [hlast] at ht
      obtain rfl := List.getLast?_eq_none_iff.1 hlast
      obtain rfl := Option.some.inj ht
      exact congrArg Plan.render h.eq_of_nil.symm

/-- Each trace goes on where the one before has ended. -/
theorem isChain (h : Chronicle p ts q) : ts.IsChain fun t u ↦ t.after = u.before := by
  induction h with
  | nil => exact .nil
  | cons rule anchor h ih => exact ih.cons fun u hu ↦ (h.before_of_head? u hu).symm

end Chronicle

/-! ### Attempts -/

/-- Of a series of attempts of which none fails, the rewrites are a chronicle. -/
theorem Trail.chronicle {es : List (Entry σ)} {p q : Plan} {as : List Attempt}
    (h : Trail es p as q) (hfree : ∀ a ∈ as, ¬a.isFailed) (rule : String) :
    Chronicle p (as.filterMap (Attempt.trace? rule)) q := by
  induction h with
  | nil p => exact .nil p
  | cons he ha _ ih =>
    obtain ⟨hfirst, hrest⟩ := List.forall_mem_cons.1 hfree
    cases ha with
    | gone hk => exact ih hrest
    | unmatched hk hm => exact ih hrest
    | rejected s hk hm hc => exact ih hrest
    | applied s hk hm hc ha => exact .cons rule _ (ih hrest)
    | failed s hk hm hc ha => exact absurd rfl hfirst

theorem Attempt.length_traces (rule : String) (as : List Attempt) :
    (as.filterMap (trace? rule)).length = as.countP isApplied := by
  induction as with
  | nil => rfl
  | cons a as ih =>
    rw [List.countP_cons]
    cases a with
    | applied => exact congrArg (· + 1) ih
    | gone | unmatched | rejected | failed => exact ih

/-- The counters of a row fit together: matches are found at anchors that are tried, and are either
rejected or rewritten. -/
def RuleReport.Balanced (row : RuleReport) : Prop :=
  row.matched ≤ row.anchors ∧ row.matched = row.rejected + row.applied

namespace RuleReport

theorem balanced_ofAttempts (name : String) {as : List Attempt} (hfree : ∀ a ∈ as, ¬a.isFailed) :
    (ofAttempts name as).Balanced := by
  unfold Balanced ofAttempts
  induction as with
  | nil => exact ⟨Nat.le_refl _, rfl⟩
  | cons a as ih =>
    obtain ⟨hfirst, hfree⟩ := List.forall_mem_cons.1 hfree
    obtain ⟨hle, heq⟩ := ih hfree
    simp only [List.countP_cons]
    cases a with
    | gone => exact ⟨hle, heq⟩
    | unmatched => exact ⟨Nat.le_succ_of_le hle, heq⟩
    | rejected =>
      exact ⟨Nat.succ_le_succ hle, (congrArg (· + 1) heq).trans (Nat.add_right_comm ..)⟩
    | applied => exact ⟨Nat.succ_le_succ hle, congrArg (· + 1) heq⟩
    | failed => exact absurd rfl hfirst

theorem Balanced.add {a b : RuleReport} (ha : a.Balanced) (hb : b.Balanced) :
    (a.add b).Balanced := by
  obtain ⟨ha, ha'⟩ := ha
  obtain ⟨hb, hb'⟩ := hb
  refine ⟨Nat.add_le_add ha hb, ?_⟩
  show a.matched + b.matched = a.rejected + b.rejected + (a.applied + b.applied)
  omega

theorem balanced_addTo {row : RuleReport} {rows : List RuleReport} (hrow : row.Balanced)
    (hrows : ∀ r ∈ rows, r.Balanced) : ∀ r ∈ row.addTo rows, r.Balanced := by
  induction rows with
  | nil => exact List.forall_mem_singleton.2 hrow
  | cons mine rows ih =>
    obtain ⟨hmine, hrows⟩ := List.forall_mem_cons.1 hrows
    rw [addTo]
    split
    · exact List.forall_mem_cons.2 ⟨hmine.add hrow, hrows⟩
    · exact List.forall_mem_cons.2 ⟨hmine, ih hrows⟩

theorem balanced_foldl_addTo {rows rows' : List RuleReport} (hrows : ∀ r ∈ rows, r.Balanced)
    (hrows' : ∀ r ∈ rows', r.Balanced) :
    ∀ r ∈ rows'.foldl (fun rows row ↦ row.addTo rows) rows, r.Balanced := by
  induction rows' generalizing rows with
  | nil => exact hrows
  | cons row rows' ih =>
    obtain ⟨hrow, hrows'⟩ := List.forall_mem_cons.1 hrows'
    exact ih (balanced_addTo hrow hrows) hrows'

end RuleReport

/-! ### A pass -/

namespace Entry

/-- Where nothing ends a pass early, no transformer has given up. -/
theorem not_isFailed_of_tryAnchors {e : Entry σ} {p : Plan} {ks : List Key}
    (h : (e.tryAnchors trace p notes ks).failure = none) :
    ∀ a ∈ (e.tryAnchors trace p notes ks).attempts, ¬a.isFailed := by
  fun_induction tryAnchors trace e p notes ks <;> simp_all [Attempt.isFailed, RuleRun.cons]

theorem not_isFailed_of_run {e : Entry σ} {p : Plan} (h : (e.run trace p traces).failure = none) :
    ∀ a ∈ (e.run trace p traces).attempts, ¬a.isFailed := by
  rw [run] at h ⊢
  split
  · exact fun _ ha ↦ absurd ha List.not_mem_nil
  next hwalk =>
    rw [hwalk] at h
    exact not_isFailed_of_tryAnchors h

end Entry

theorem Journal.length_traces (journal : Journal) :
    journal.traces.length = journal.attempts.countP Attempt.isApplied := by
  simp only [traces, attempts, List.length_flatMap, List.countP_flatMap, Function.comp_def,
    Attempt.length_traces]

/-- By induction on the rules: each goes on in the plan that the one before has left. -/
theorem Entry.chronicle_runAll {es : List (Entry σ)} {p : Plan}
    (h : (runAll trace traces es p).failure = none) :
    Chronicle p (Journal.traces (runAll trace traces es p).journal)
        (runAll trace traces es p).plan ∧
      ∀ row ∈ (runAll trace traces es p).journal, ∀ a ∈ row.2, ¬a.isFailed := by
  fun_induction runAll trace traces es p with
  | case1 traces p => exact ⟨.nil p, fun _ hrow ↦ absurd hrow List.not_mem_nil⟩
  | case2 => cases h
  | case3 traces e es p run hfailure ih =>
    have hfree := not_isFailed_of_run hfailure
    have hfirst := (trail_run e p).chronicle hfree e.rule.name
    obtain ⟨hothers, hfree'⟩ := ih h
    exact ⟨hfirst.append hothers, List.forall_mem_cons.2 ⟨hfree, hfree'⟩⟩

/-! ### Reports -/

/-- **The report tells what has led from `p` to `q`.** -/
structure Report.Faithful (r : Report) (p q : Plan) : Prop where
  chronicle : Chronicle p r.traces q
  length_traces : r.traces.length = r.rewrites
  balanced : ∀ row ∈ r.rules, row.Balanced

namespace Report

variable {p q s : Plan}

theorem faithful_empty (p : Plan) : (∅ : Report).Faithful p p where
  chronicle := .nil p
  length_traces := rfl
  balanced := nofun

theorem Faithful.absorb {r other : Report} (h : r.Faithful p q) (h' : other.Faithful q s) :
    (r.absorb other).Faithful p s where
  chronicle := h.chronicle.append h'.chronicle
  length_traces := by
    rw [rewrites_absorb, ← h.length_traces, ← h'.length_traces]
    exact List.length_append
  balanced := RuleReport.balanced_foldl_addTo h.balanced h'.balanced

end Report

namespace Optimizer

variable {o : Optimizer σ}

/-- **One pass.** -/
theorem faithful_of_optimize (htrace : o.config.traceRewrites = true) {report : Report}
    (h : o.optimize.answer = .ok report) :
    report.Faithful o.plan o.optimize.optimizer.plan := by
  have hrewrites := rewrites_of_optimize h
  obtain ⟨hfailure, rfl⟩ := optimize_answer_eq_ok_iff.1 h
  obtain ⟨hchronicle, hfree⟩ := Entry.chronicle_runAll hfailure
  have htraces : (Report.ofJournal o.config.traceRewrites o.optimize.journal).traces =
      o.optimize.journal.traces := if_pos htrace
  refine ⟨htraces ▸ hchronicle, ?_, ?_⟩
  · rw [hrewrites, htraces, Journal.length_traces]
  · intro row hrow
    obtain ⟨line, hline, rfl⟩ := List.mem_map.1 hrow
    exact RuleReport.balanced_ofAttempts _ (hfree line hline)

/-- Several passes, which go on with a report of what has led to the plan that there is. -/
theorem faithful_of_passes {p : Plan} {total report : Report} {journal : Journal} {n : Nat}
    (htrace : o.config.traceRewrites = true) (htotal : total.Faithful p o.plan)
    (h : (passes total journal n o).answer = .ok report) :
    report.Faithful p (passes total journal n o).optimizer.plan := by
  fun_induction passes total journal n o with
  | case1 total journal o => exact Except.ok.inj h ▸ htotal
  | case2 => cases h
  | case3 total journal n o run r hanswer total' hchanged ih =>
    exact ih htrace (htotal.absorb (faithful_of_optimize htrace hanswer)) h
  | case4 total journal n o run r hanswer total' hchanged =>
    exact Except.ok.inj h ▸ htotal.absorb (faithful_of_optimize htrace hanswer)

/-- **Either call.** -/
theorem faithful_of_call (htrace : o.config.traceRewrites = true) {c : Call} {report : Report}
    (h : (o.call c).answer = .ok report) : report.Faithful o.plan (o.call c).optimizer.plan := by
  cases c with
  | optimize => exact faithful_of_optimize htrace h
  | optimizeUntilStable => exact faithful_of_passes htrace (Report.faithful_empty o.plan) h

/-- **Traces are an unbroken history.** With recording on, whatever plan, rules and transformers
there are, a call that succeeds reports as many traces as rewrites, and in every row the matches are
those of the anchors that were rejected or rewritten. The first trace begins with the plan before
the call, each goes on where the one before has ended, across rules and passes, and the last ends
with the plan after the call. Without a trace the plan is what it was. -/
theorem traces_link_up (htrace : o.config.traceRewrites = true) {c : Call} {report : Report}
    (h : (o.call c).answer = .ok report) :
    report.traces.length = report.rewrites ∧
      (∀ row ∈ report.rules,
        row.matched ≤ row.anchors ∧ row.matched = row.rejected + row.applied) ∧
      (∀ t ∈ report.traces.head?, t.before = o.plan.render) ∧
      (report.traces.IsChain fun t u ↦ t.after = u.before) ∧
      (∀ t ∈ report.traces.getLast?, t.after = (o.call c).optimizer.plan.render) ∧
      (report.traces = [] → (o.call c).optimizer.plan = o.plan) := by
  obtain ⟨hchronicle, hlength, hbalanced⟩ := faithful_of_call htrace h
  exact ⟨hlength, hbalanced, hchronicle.before_of_head?, hchronicle.isChain,
    hchronicle.after_of_getLast?, fun hnil ↦ (hnil ▸ hchronicle).eq_of_nil⟩

/-- The two nibblers on three operators without edges, and their bites are recorded. -/
def recordedNibbler : Optimizer Nat :=
  { nibbler 2 with
    plan := (((∅ : Plan).put ⟨⟨"flow", 0⟩, "a", .sink, false, false⟩).put
      ⟨⟨"flow", 1⟩, "b", .sink, false, false⟩).put ⟨⟨"flow", 2⟩, "c", .sink, false, false⟩
    config := { maxPasses := 16, traceRewrites := true } }

/-- The first pass has a trace of each rule, the second a trace of the first rule, and the third
none. The three link up, from one rule to the other and from one pass to the next. -/
theorem traces_link_up_nibbler :
    recordedNibbler.config.traceRewrites = true ∧
      ∃ report, (recordedNibbler.call .optimizeUntilStable).answer = .ok report ∧
        report.passes = 3 ∧ report.traces.length = 3 ∧
        (report.traces.IsChain fun t u ↦ t.after = u.before) ∧
        ∀ t ∈ report.traces.getLast?, t.after = (∅ : Plan).render := by
  have hanswer : (recordedNibbler.call .optimizeUntilStable).answer =
      .ok ⟨3, [⟨"nibble", 3, 3, 0, 3⟩],
        [⟨"nibble", ⟨"flow", 0⟩, "Nodes: a b c FromEdges: ToEdges: ",
          "Nodes: b c FromEdges: ToEdges: "⟩,
          ⟨"nibble", ⟨"flow", 1⟩, "Nodes: b c FromEdges: ToEdges: ",
            "Nodes: c FromEdges: ToEdges: "⟩,
          ⟨"nibble", ⟨"flow", 2⟩, "Nodes: c FromEdges: ToEdges: ",
            "Nodes: FromEdges: ToEdges: "⟩]⟩ := by
    decide +kernel
  have hempty : (recordedNibbler.call .optimizeUntilStable).optimizer.plan = ∅ := by decide +kernel
  obtain ⟨hlength, -, -, hchain, hlast, -⟩ := traces_link_up rfl hanswer
  exact ⟨rfl, _, hanswer, rfl, hlength, hchain, hempty ▸ hlast⟩

end Optimizer

end Dataflow
