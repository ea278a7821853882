import Dataflow.Command.Run
import Dataflow.Proofs.Coverage
import Dataflow.Proofs.Pruning

/-!
# Documents do not fail

A document is built by edits, so its plan is in order. From there on no transformer gives up: an
action that is wanted goes through. This leaves the walkers, and of these the ones that ask for an
order along the edges, in a plan with a cycle. Rules do not make cycles. So a document that passes
validation can be shown and optimized without an error, whatever the settings
(`BuiltDocument.optimizing_never_fails`, and for whole commands `Command.exists_run_of_validate`).
-/

namespace Dataflow

/-! ### Built plans are in order -/

namespace Document

variable {allowed : Operator → Operator → Prop} {p q : Plan}

theorem reaches_addOperators {entries : List OperatorEntry} {supply : KeySupply}
    {names names' : NameTable} (h : addOperators entries supply names p = .ok (names', q))
    (hp : Reaches allowed ∅ p) : Reaches allowed ∅ q := by
  induction entries generalizing supply names p with
  | nil =>
    cases h
    exact hp
  | cons o rest ih =>
    rw [addOperators] at h
    split at h
    · cases h
    · dsimp only at h
      have hadd := hp.add (o.operator supply.take.1)
      split at h
      · cases h
      next hanswer =>
        rw [hanswer] at hadd
        exact ih h hadd

theorem reaches_addEdges {names : NameTable} {edges : List EdgeEntry}
    (h : addEdges names edges p = .ok q) (hp : Reaches allowed ∅ p) : Reaches allowed ∅ q := by
  induction edges generalizing p with
  | nil =>
    cases h
    exact hp
  | cons e rest ih =>
    rw [addEdges] at h
    obtain ⟨source, -, h⟩ := Check.bind_eq_ok_iff.1 h
    obtain ⟨target, -, h⟩ := Check.bind_eq_ok_iff.1 h
    have hconnect := hp.connect source target
    split at h
    · cases h
    next hanswer =>
      rw [hanswer] at hconnect
      exact ih h hconnect

/-- **A document is built by edits.** -/
theorem reaches_of_build {d : Document} {base : Config} {b : BuiltDocument}
    (h : d.build base = .ok b) : Reaches allowed ∅ b.plan := by
  rw [build] at h
  obtain ⟨⟨names, p⟩, hoperators, h⟩ := Check.bind_eq_ok_iff.1 h
  obtain ⟨q, hedges, h⟩ := Check.bind_eq_ok_iff.1 h
  obtain ⟨rules, -, h⟩ := Check.bind_eq_ok_iff.1 h
  obtain rfl := Check.pure_eq_ok_iff.1 h
  exact reaches_addEdges hedges (reaches_addOperators hoperators (.refl ∅))

theorem checkInvariants_of_build {d : Document} {base : Config} {b : BuiltDocument}
    (h : d.build base = .ok b) : b.plan.checkInvariants = .ok () := by
  have hlasting : Lasting Operator.KeepsArity fun p ↦ p.Linked ∧ p.RespectsArity :=
    Plan.lasting_respectsArity fun _ _ ↦ id
  exact Plan.checkInvariants_eq_ok_iff.2 ((reaches_of_build h).lasting hlasting hlasting.empty)

end Document

/-! ### Nothing gives up but a walker -/

namespace Optimizer

variable {σ : Type} {o : Optimizer σ}

/-- **No transformer gives up.** -/
theorem Ready.not_isFailed (h : o.Ready) {c : Call} {attempt : Attempt}
    (hattempt : attempt ∈ (o.call c).journal.attempts) : attempt.isFailed = false := by
  obtain ⟨e, he, p, q, hp, ht⟩ := h.exists_tries hattempt
  obtain ⟨-, -, hfailed⟩ | ⟨rule, a, m, -, -, -, rfl⟩ := (h.scripted e he).tries_cases hp ht
  · exact hfailed
  · rfl

/-- **So it is a walker that makes a call fail**, on the plan that the call leaves. -/
theorem Ready.exists_walk_of_error (h : o.Ready) {c : Call} {e : OptimizerError}
    (he : (o.call c).answer = .error e) :
    ∃ d ∈ o.entries, ∃ s cause,
      (d.transformer.walker s).walk (o.call c).optimizer.plan = .error cause ∧ e = .plan cause := by
  obtain ⟨run, hrun, he', hlast⟩ := exists_pass_of_error he
  obtain ⟨o', ho', rfl⟩ := exists_of_mem_passesOf (fun _ ↦ Becomes.optimize) h.becomes hrun
  rw [← hlast, ← ho'.entries]
  -- The pass that failed says why, and it was not a transformer.
  refine (exists_failed_of_optimize he').resolve_left ?_
  rintro ⟨attempt, hattempt, hfailed⟩
  exact Bool.false_ne_true ((ho'.ready.not_isFailed (c := .optimize) hattempt).symm.trans hfailed)

end Optimizer

/-! ### Showing a plan -/

/-- A visitor that never gives up is shown whatever is there. -/
theorem Plan.visitEach_eq_ok {σ : Type} {p : Plan} {v : Visitor σ}
    (hv : ∀ s op, (v.visit s p op).1 = .ok ()) {ks : List Key} (hks : ∀ k ∈ ks, p.contains k)
    (s : σ) : (p.visitEach v ks s).1 = .ok () := by
  induction ks generalizing s with
  | nil => rfl
  | cons k ks ih =>
    obtain ⟨op, hop⟩ := contains_iff.1 (hks k (List.mem_cons_self ..))
    rw [visitEach, lookup_eq_ok_iff.2 hop]
    dsimp only
    split
    · exact ih (fun j hj ↦ hks j (.tail _ hj)) _
    next reason s' hvisit =>
      have hok := hv s op
      rw [hvisit] at hok
      cases hok

namespace BuiltDocument

variable {b : BuiltDocument}

theorem acyclic_of_validate (h : b.validate = .ok ()) :
    b.plan.checkInvariants = .ok () ∧ b.plan.Acyclic := by
  obtain ⟨⟨⟩, hplan, h⟩ := Check.bind_eq_ok_iff.1 h
  have hlinked : b.plan.Linked := (Plan.checkInvariants_eq_ok_iff.1 hplan).1
  refine ⟨hplan, hlinked.dependencyOrder_isOk_iff.1 ?_⟩
  cases hwalk : b.plan.dependencyOrder with
  | ok ks => exact ⟨ks, rfl⟩
  | error e =>
    have hwalk' : Walker.dependency.walk b.plan = .error e := hwalk
    rw [hwalk'] at h
    cases h

/-- The entries of a document are rules of a document. -/
theorem ready_toOptimizer (hplan : b.plan.checkInvariants = .ok ()) (config : Config) :
    ({ b with config }).toOptimizer.Ready where
  checkInvariants := hplan
  scripted := by
    intro e he
    obtain ⟨r, -, rfl⟩ := List.mem_map.1 he
    exact ⟨r.rule.name, r.action, r.walker, trivial, rfl⟩

/-- A plan that can be walked can be shown. -/
theorem exists_explain (hplan : b.plan.checkInvariants = .ok ()) (hacyclic : b.plan.Acyclic)
    (order : WalkOrder) :
    (∃ text, b.explainText order = .ok text) ∧ ∃ v, b.explainJson order = .ok v := by
  have hlinked : b.plan.Linked := (Plan.checkInvariants_eq_ok_iff.1 hplan).1
  obtain ⟨ks, hks⟩ := WalkOrder.exists_walk hlinked hacyclic order
  have hvisit : (b.plan.visit order.walker .printer []).1 = .ok () := by
    rw [Plan.visit, hks]
    exact Plan.visitEach_eq_ok (fun _ _ ↦ rfl)
      (fun k hk ↦ (WalkOrder.mem_iff_of_walk hlinked hks).1 hk) []
  constructor
  · rw [explainText]
    dsimp only
    rw [hvisit]
    exact ⟨_, rfl⟩
  · rw [explainJson, hks]
    exact ⟨_, rfl⟩

/-! ### Calls and commands -/

/-- In a series of calls, nothing fails but a walker that asks for an order along the edges, and
that only on a plan with a cycle. -/
theorem series_answer (hplan : b.plan.checkInvariants = .ok ()) {config : Config}
    {calls : List Call} {run : Run Unit}
    (hrun : run ∈ ({ b with config }).toOptimizer.series calls) :
    (∀ attempt ∈ run.journal.attempts, ¬attempt.isFailed) ∧
      ∀ e, run.answer = .error e → ∃ r ∈ b.rules, r.walker ≠ .depthFirst ∧
        ∃ cause, r.walker.walker.walk run.optimizer.plan = .error cause ∧ e = .plan cause ∧
          ∃ n, cause = .structural (.cycle n run.optimizer.plan.size) := by
  have hready := ready_toOptimizer hplan config
  obtain ⟨o, c, ho, rfl⟩ :=
    Optimizer.exists_of_mem_series (fun _ ↦ Optimizer.Becomes.optimize) hready.becomes hrun
  refine ⟨fun attempt hattempt ↦ ?_, fun e he ↦ ?_⟩
  · rw [ho.ready.not_isFailed hattempt]
    exact Bool.false_ne_true
  · obtain ⟨d, hd, s, cause, hwalk, hcause⟩ := ho.ready.exists_walk_of_error he
    rw [ho.entries] at hd
    obtain ⟨r, hr, rfl⟩ := List.mem_map.1 hd
    obtain ⟨hwalker, hcycle⟩ := WalkOrder.walk_error (ho.ready.call c).ready.linked hwalk
    exact ⟨r, hr, hwalker, cause, hwalk, hcause, hcycle⟩

/-- Without a cycle in the plan, all calls succeed, and leave a plan without a cycle. -/
theorem series_answer_of_acyclic (hplan : b.plan.checkInvariants = .ok ())
    (hacyclic : b.plan.Acyclic) {config : Config} {calls : List Call} {run : Run Unit}
    (hrun : run ∈ ({ b with config }).toOptimizer.series calls) :
    (∃ report, run.answer = .ok report) ∧ run.optimizer.plan.Acyclic ∧
      run.optimizer.plan.checkInvariants = .ok () ∧
      ∀ order : WalkOrder, ∃ ks, order.walker.walk run.optimizer.plan = .ok ks := by
  have hprunes := Optimizer.prunes_series (ready_toOptimizer hplan config).scripted calls run hrun
    _ (List.mem_cons_self ..)
  obtain ⟨hplan', -, hthins⟩ := hprunes hplan
  have hlinked := (Plan.checkInvariants_eq_ok_iff.1 hplan').1
  have hacyclic' : run.optimizer.plan.Acyclic := (hthins (.inl hacyclic)).acyclic hlinked hacyclic
  have hwalks := WalkOrder.exists_walk hlinked hacyclic'
  refine ⟨?_, hacyclic', hplan', hwalks⟩
  cases hanswer : run.answer with
  | ok report => exact ⟨report, rfl⟩
  | error e =>
    obtain ⟨r, -, -, cause, hwalk, -⟩ := (series_answer hplan hrun).2 e hanswer
    obtain ⟨ks, hks⟩ := hwalks r.walker
    cases hwalk.symm.trans hks

/-- **What passes validation, passes every job.** -/
theorem exists_run_of_validate (h : b.validate = .ok ()) (job : Job) :
    ∃ text, job.run b = .ok text := by
  obtain ⟨hplan, hacyclic⟩ := acyclic_of_validate h
  cases job with
  | validate =>
    rw [Job.run, h]
    exact ⟨_, rfl⟩
  | explain walker? json =>
    rw [Job.run]
    obtain ⟨⟨text, htext⟩, v, hv⟩ := exists_explain hplan hacyclic (walker?.getD b.walker)
    cases json with
    | false => exact ⟨text, by simp [htext, Except.mapError]⟩
    | true => exact ⟨v.pretty ++ "\n", by simp [hv, Except.mapError]⟩
  | optimize maxPasses? trace =>
    rw [Job.run]
    have hrun : ∀ o : Optimizer Unit, o.optimizeUntilStable ∈ o.series [.optimizeUntilStable] :=
      fun _ ↦ List.mem_cons_self ..
    let config := Job.overrides maxPasses? trace b.config
    obtain ⟨⟨report, hreport⟩, -⟩ :=
      series_answer_of_acyclic hplan hacyclic (hrun ({ b with config }).toOptimizer)
    rw [hreport]
    exact ⟨_, rfl⟩

/-- **Optimization of a document never fails**, except that a walker may come upon a cycle that the
document has itself. Whatever settings are used and whatever calls are made, no transformer gives
up, and an error is that of a walker of one of the rules, which finds a cycle in the plan that is
left. If the document has no cycle, every call succeeds, and leaves a plan in order that all walkers
can walk. And if it passes validation, so that it has none, every command succeeds. -/
theorem optimizing_never_fails {d : Document} {base : Config} {b : BuiltDocument}
    (hb : d.build base = .ok b) :
    (∀ config calls, ∀ run ∈ ({ b with config }).toOptimizer.series calls,
      (∀ attempt ∈ run.journal.attempts, ¬attempt.isFailed) ∧
      ∀ e, run.answer = .error e → ∃ r ∈ b.rules, r.walker ≠ .depthFirst ∧
        ∃ cause, r.walker.walker.walk run.optimizer.plan = .error cause ∧ e = .plan cause ∧
          ∃ n, cause = .structural (.cycle n run.optimizer.plan.size)) ∧
    (b.plan.Acyclic → ∀ config calls, ∀ run ∈ ({ b with config }).toOptimizer.series calls,
      (∃ report, run.answer = .ok report) ∧ run.optimizer.plan.Acyclic ∧
      run.optimizer.plan.checkInvariants = .ok () ∧
      ∀ order : WalkOrder, ∃ ks, order.walker.walk run.optimizer.plan = .ok ks) ∧
    (b.validate = .ok () → ∀ job : Job, ∃ text, job.run b = .ok text) := by
  have hplan := Document.checkInvariants_of_build hb
  exact ⟨fun _ _ _ ↦ series_answer hplan,
    fun hacyclic _ _ _ ↦ series_answer_of_acyclic hplan hacyclic, exists_run_of_validate⟩

/-- Three operators in a row. A rule takes out the second. -/
def pipeline : Document where
  settings? := none
  walker? := some .dependency
  operators := [⟨"read", .source, none, none⟩, ⟨"clean", .transform, none, none⟩,
    ⟨"save", .sink, none, none⟩]
  edges := [⟨"read", "clean"⟩, ⟨"clean", "save"⟩]
  rules := [⟨"Transform", ["transform"], [], [], .remove 0, none⟩]

/-- The same, ready for use. -/
def builtPipeline : BuiltDocument where
  plan :=
    let read : Operator := ⟨⟨"doc", 0⟩, "read", .source, false, false⟩
    let clean : Operator := ⟨⟨"doc", 1⟩, "clean", .transform, false, false⟩
    let save : Operator := ⟨⟨"doc", 2⟩, "save", .sink, false, false⟩
    let bare := (((∅ : Plan).add read).plan.add clean).plan.add save
    ((bare.plan.connect read.key clean.key).plan.connect clean.key save.key).plan
  rules := [⟨.ofKind .transform, .remove 0, .dependency⟩]
  config := default
  walker := .dependency

/-- A union and a split that feed each other. A rule looks for sinks, in an order that there is
not. -/
def roundabout : Document where
  settings? := none
  walker? := none
  operators := [⟨"meet", .union, none, none⟩, ⟨"part", .split, none, none⟩]
  edges := [⟨"meet", "part"⟩, ⟨"part", "meet"⟩]
  rules := [⟨"Sink", ["sink"], [], [], .remove 0, some .reverseDependency⟩]

/-- The same, ready for use. -/
def builtRoundabout : BuiltDocument where
  plan :=
    let meet : Operator := ⟨⟨"doc", 0⟩, "meet", .union, true, false⟩
    let part : Operator := ⟨⟨"doc", 1⟩, "part", .split, false, true⟩
    let bare := ((∅ : Plan).add meet).plan.add part
    ((bare.plan.connect meet.key part.key).plan.connect part.key meet.key).plan
  rules := [⟨.ofKind .sink, .remove 0, .reverseDependency⟩]
  config := default
  walker := .depthFirst

/-- The pipeline passes validation, so it can be optimized and shown. The roundabout cannot be
optimized, because of its cycle. -/
theorem optimizing_never_fails_pipeline :
    pipeline.build default = .ok builtPipeline ∧ builtPipeline.validate = .ok () ∧
      (∀ config, ∃ report,
        ({ builtPipeline with config }).toOptimizer.optimizeUntilStable.answer = .ok report) ∧
      (∀ job : Job, ∃ text, job.run builtPipeline = .ok text) ∧
      roundabout.build default = .ok builtRoundabout ∧
      ∃ e, builtRoundabout.toOptimizer.optimize.answer = .error e ∧
        ∃ r ∈ builtRoundabout.rules, r.walker ≠ .depthFirst ∧
          ∃ n, e = .plan (.structural (.cycle n 2)) := by
  have hb : pipeline.build default = .ok builtPipeline := by decide +kernel
  have hb' : roundabout.build default = .ok builtRoundabout := by decide +kernel
  have hvalid : builtPipeline.validate = .ok () := by decide +kernel
  obtain ⟨-, hcalls, hjobs⟩ := optimizing_never_fails hb
  obtain ⟨hcalls', -⟩ := optimizing_never_fails hb'
  have hacyclic : builtPipeline.plan.Acyclic := (acyclic_of_validate hvalid).2
  refine ⟨hb, hvalid, fun config ↦ ?_, hjobs hvalid, hb', ?_⟩
  · exact (hcalls hacyclic config [.optimizeUntilStable] _ (List.mem_cons_self ..)).1
  · have hanswer : builtRoundabout.toOptimizer.optimize.answer =
        .error (.plan (.structural (.cycle 0 2))) := by cbv
    obtain ⟨-, herror⟩ := hcalls' default [.optimize] _ (List.mem_cons_self ..)
    obtain ⟨r, hr, hwalker, -⟩ := herror _ hanswer
    exact ⟨_, hanswer, r, hr, hwalker, 0, rfl⟩

end BuiltDocument

/-- **A file that is valid can be shown and optimized.** -/
theorem Command.exists_run_of_validate {path : String} {contents : Except FileError String}
    {base : Config} {answer : String}
    (h : (Command.mk path .validate).run contents base = .ok answer) (job : Job) :
    ∃ text, (Command.mk path job).run contents base = .ok text := by
  rw [run] at h ⊢
  obtain ⟨text, htext, h⟩ := Check.bind_eq_ok_iff.1 h
  rw [htext]
  cases hd : Document.ofYaml? text with
  | none =>
    rw [hd] at h
    cases h
  | some d =>
    rw [hd] at h
    obtain ⟨d, ⟨⟩, h⟩ := Check.bind_eq_ok_iff.1 h
    obtain ⟨b, hb, h⟩ := Check.bind_eq_ok_iff.1 h
    obtain ⟨⟨⟩, hvalid, -⟩ := Check.bind_eq_ok_iff.1 h
    have hvalid' : b.validate = .ok () := by
      cases hcheck : b.validate with
      | ok u => rfl
      | error e => simp [hcheck, Except.mapError] at hvalid
    obtain ⟨shown, hshown⟩ := b.exists_run_of_validate hvalid' job
    refine ⟨shown, Check.bind_eq_ok_iff.2 ⟨text, rfl, ?_⟩⟩
    rw [hd]
    exact Check.bind_eq_ok_iff.2 ⟨d, rfl, Check.bind_eq_ok_iff.2 ⟨b, hb, hshown⟩⟩

end Dataflow
