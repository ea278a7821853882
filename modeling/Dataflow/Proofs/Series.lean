import Dataflow.Proofs.Trails

/-!
# Calls one after the other

An optimizer stays in use for as long as one likes: it can be called again and again, in either of
the two ways, also after a call that failed. `Optimizer.series` is what comes out of such calls.

A call makes one pass or several, which `Optimizer.passesOf` lists, and it is the passes that say
what there is to say about it: its journal is theirs, the last of them leaves the optimizer that the
call leaves, and if the call fails, the last of them has failed (`Optimizer.exists_pass_of_error`).
So what a single pass preserves is true of the optimizer before each pass of each call.
-/

namespace Dataflow

variable {σ : Type}

/-- The run has succeeded and rewritten something. -/
def Run.changed (run : Run σ) : Bool :=
  match run.answer with
  | .ok report => report.changed
  | .error _ => false

/-- The two ways to call an optimizer. -/
inductive Call
  | optimize
  | optimizeUntilStable
  deriving DecidableEq, Repr

namespace Optimizer

/-- What a call does. -/
def call (o : Optimizer σ) : Call → Run σ
  | .optimize => o.optimize
  | .optimizeUntilStable => o.optimizeUntilStable

/-- What comes of calls that are made one after the other. Each goes on from what the one before has
left, whatever its answer. -/
def series (o : Optimizer σ) : List Call → List (Run σ)
  | [] => []
  | c :: calls => o.call c :: (o.call c).optimizer.series calls

/-- Up to `n` passes one after the other, ending with the first that changes nothing or fails. -/
def passList : Nat → Optimizer σ → List (Run σ)
  | 0, _ => []
  | n + 1, o => o.optimize :: if o.optimize.changed then passList n o.optimize.optimizer else []

/-- The passes that a call makes. -/
def passesOf (o : Optimizer σ) : Call → List (Run σ)
  | .optimize => [o.optimize]
  | .optimizeUntilStable => passList o.config.maxPasses.toNat o

variable {o : Optimizer σ}

/-! ### A call and its passes -/

theorem passList_succ_of_changed {n : Nat} {report : Report}
    (hreport : o.optimize.answer = .ok report) (hchanged : report.changed = true) :
    passList (n + 1) o = o.optimize :: passList n o.optimize.optimizer := by
  rw [passList, Run.changed, hreport]
  exact congrArg _ (if_pos hchanged)

theorem passList_succ_of_not_changed {n : Nat} {report : Report}
    (hreport : o.optimize.answer = .ok report) (hchanged : ¬report.changed = true) :
    passList (n + 1) o = [o.optimize] := by
  rw [passList, Run.changed, hreport]
  exact congrArg _ (if_neg hchanged)

theorem passList_succ_of_error {n : Nat} {e : OptimizerError} (he : o.optimize.answer = .error e) :
    passList (n + 1) o = [o.optimize] := by
  rw [passList, Run.changed, he]
  rfl

theorem journal_passes (total : Report) (journal : Journal) (n : Nat) (o : Optimizer σ) :
    (passes total journal n o).journal = journal ++ (passList n o).flatMap (·.journal) := by
  fun_induction passes total journal n o with
  | case1 total journal o => exact (List.append_nil journal).symm
  | case2 total journal n o run e hanswer =>
    rw [passList_succ_of_error hanswer]
    exact congrArg (journal ++ ·) (List.append_nil _).symm
  | case3 total journal n o run report hanswer total' hchanged ih =>
    rw [ih, passList_succ_of_changed hanswer hchanged, List.flatMap_cons, List.append_assoc]
  | case4 total journal n o run report hanswer total' hchanged =>
    rw [passList_succ_of_not_changed hanswer hchanged]
    exact congrArg (journal ++ ·) (List.append_nil _).symm

/-- The last pass leaves what is left. -/
theorem optimizer_passes (total : Report) (journal : Journal) (n : Nat) (o : Optimizer σ) :
    (passes total journal n o).optimizer =
      ((passList n o).getLast?.map (·.optimizer)).getD o := by
  fun_induction passes total journal n o with
  | case1 total journal o => rfl
  | case2 total journal n o run e hanswer =>
    rw [passList_succ_of_error hanswer]
    rfl
  | case3 total journal n o run report hanswer total' hchanged ih =>
    rw [ih, passList_succ_of_changed hanswer hchanged, List.getLast?_cons]
    cases (passList n o.optimize.optimizer).getLast? <;> rfl
  | case4 total journal n o run report hanswer total' hchanged =>
    rw [passList_succ_of_not_changed hanswer hchanged]
    rfl

/-- If passes fail, the last of them does. -/
theorem exists_last_of_error {total : Report} {journal : Journal} {n : Nat} {e : OptimizerError}
    (h : (passes total journal n o).answer = .error e) :
    ∃ last, (passList n o).getLast? = some last ∧ last.answer = .error e := by
  fun_induction passes total journal n o with
  | case1 total journal o => cases h
  | case2 total journal n o run e' hanswer =>
    rw [passList_succ_of_error hanswer]
    exact ⟨o.optimize, rfl, hanswer.trans h⟩
  | case3 total journal n o run report hanswer total' hchanged ih =>
    obtain ⟨last, hlast, he⟩ := ih h
    rw [passList_succ_of_changed hanswer hchanged, List.getLast?_cons, hlast]
    exact ⟨last, rfl, he⟩
  | case4 => cases h

theorem attempts_call (o : Optimizer σ) (c : Call) :
    (o.call c).journal.attempts = (o.passesOf c).flatMap (·.journal.attempts) := by
  cases c with
  | optimize => exact (List.append_nil _).symm
  | optimizeUntilStable =>
    show Journal.attempts (passes _ _ _ o).journal = _
    rw [journal_passes, List.nil_append, Journal.attempts, List.flatMap_assoc]
    rfl

/-- **A call fails with its last pass.** -/
theorem exists_pass_of_error {c : Call} {e : OptimizerError} (h : (o.call c).answer = .error e) :
    ∃ run ∈ o.passesOf c, run.answer = .error e ∧ run.optimizer = (o.call c).optimizer := by
  cases c with
  | optimize => exact ⟨o.optimize, List.mem_singleton_self _, h, rfl⟩
  | optimizeUntilStable =>
    obtain ⟨last, hlast, he⟩ := exists_last_of_error h
    refine ⟨last, List.mem_of_getLast? hlast, he, ?_⟩
    show _ = (passes _ _ _ o).optimizer
    rw [optimizer_passes, hlast]
    rfl

/-! ### What passes preserve -/

section Preserved

variable {J : Optimizer σ → Prop} (hJ : ∀ o, J o → J o.optimize.optimizer)

include hJ

theorem exists_of_mem_passList {n : Nat} (ho : J o) {run : Run σ} (h : run ∈ passList n o) :
    ∃ o', J o' ∧ o'.optimize = run := by
  induction n generalizing o with
  | zero => cases h
  | succ n ih =>
    rw [passList] at h
    rcases List.mem_cons.1 h with rfl | h
    · exact ⟨o, ho, rfl⟩
    · split at h
      · exact ih (hJ o ho) h
      · cases h

/-- **Before each pass of a call there is what passes preserve.** -/
theorem exists_of_mem_passesOf (ho : J o) {c : Call} {run : Run σ} (h : run ∈ o.passesOf c) :
    ∃ o', J o' ∧ o'.optimize = run := by
  cases c with
  | optimize => exact ⟨o, ho, (List.mem_singleton.1 h).symm⟩
  | optimizeUntilStable => exact exists_of_mem_passList hJ ho h

theorem call_of (ho : J o) (c : Call) : J (o.call c).optimizer := by
  cases c with
  | optimize => exact hJ o ho
  | optimizeUntilStable =>
    show J (passes _ _ _ o).optimizer
    rw [optimizer_passes]
    cases hlast : (passList o.config.maxPasses.toNat o).getLast? with
    | none => exact ho
    | some last =>
      obtain ⟨o', ho', rfl⟩ := exists_of_mem_passList hJ ho (List.mem_of_getLast? hlast)
      exact hJ o' ho'

/-- **Before each call of a series there is what passes preserve.** -/
theorem exists_of_mem_series (ho : J o) {calls : List Call} {run : Run σ}
    (h : run ∈ o.series calls) : ∃ o' c, J o' ∧ o'.call c = run := by
  induction calls generalizing o with
  | nil => cases h
  | cons c calls ih =>
    rcases List.mem_cons.1 h with rfl | h
    · exact ⟨o, c, ho, rfl⟩
    · exact ih (call_of hJ ho c) h

end Preserved

/-! ### Plans in relation -/

section Related

variable {R : Plan → Plan → Prop} (hrefl : ∀ p, R p p) (htrans : ∀ {p q r}, R p q → R q r → R p r)

include hrefl htrans

/-- **A series of calls.** If all rewrites are in relation `R`, so are the plan at the outset and
every plan that occurs. -/
theorem related_series (h : o.Follows R) (calls : List Call) :
    ∀ run ∈ o.series calls, ∀ q ∈ run.plans, R o.plan q := by
  intro run hrun q hq
  have hpass : ∀ o' : Optimizer σ, o'.Follows R ∧ R o.plan o'.plan →
      o'.optimize.optimizer.Follows R ∧ R o.plan o'.optimize.optimizer.plan := fun o' ⟨h', hp⟩ ↦
    ⟨h'.optimize, htrans hp (related_optimize hrefl htrans h' _ (List.mem_cons_self ..))⟩
  obtain ⟨o', c, ⟨h', hp⟩, rfl⟩ := exists_of_mem_series hpass ⟨h, hrefl _⟩ hrun
  cases c with
  | optimize => exact htrans hp (related_optimize hrefl htrans h' q hq)
  | optimizeUntilStable => exact htrans hp (related_optimizeUntilStable hrefl htrans h' q hq)

end Related

end Optimizer

/-! ### Transformers that keep no state -/

namespace Entry

/-- The transformer leaves its state as it is. -/
def Stateless (e : Entry σ) : Prop :=
  ∀ s p m, (e.transformer.transform s p m).2 = s

variable {trace : Bool} {notes : Notes} {traces : List RewriteTrace}

theorem Stateless.tryAnchors {e : Entry σ} (h : e.Stateless) (p : Plan) (ks : List Key) :
    (e.tryAnchors trace p notes ks).entry = e := by
  fun_induction Entry.tryAnchors trace e p notes ks with
  | case1 e p notes => rfl
  | case2 e p notes k ks hk ih => exact ih h
  | case3 e p notes k ks hk notes₁ hnone ih => exact ih h
  | case4 e p notes k ks hk notes₁ m hm notes₂ hcheck ih => exact ih h
  | case5 e p notes k ks hk notes₁ m hm notes₂ hcheck outcome state htransform reason hanswer =>
    obtain rfl : e.state = state := (h e.state p m).symm.trans (congrArg Prod.snd htransform)
    rfl
  | case6 e p notes k ks hk notes₁ m hm notes₂ hcheck before? outcome state htransform hanswer
      record? ih =>
    obtain rfl : e.state = state := (h e.state p m).symm.trans (congrArg Prod.snd htransform)
    exact ih h

theorem Stateless.run {e : Entry σ} (h : e.Stateless) (p : Plan) :
    (e.run trace p traces).entry = e := by
  rw [Entry.run]
  split
  · rfl
  · exact h.tryAnchors p _

theorem Stateless.runAll {es : List (Entry σ)} (h : ∀ e ∈ es, e.Stateless) (p : Plan) :
    (runAll trace traces es p).entries = es := by
  fun_induction Entry.runAll trace traces es p with
  | case1 traces p => rfl
  | case2 traces e es p run reason hfailure =>
    exact congrArg (· :: es) ((h e (List.mem_cons_self ..)).run p)
  | case3 traces e es p run hfailure ih =>
    exact List.cons_eq_cons.2 ⟨(h e (List.mem_cons_self ..)).run p, ih fun d hd ↦ h d (.tail _ hd)⟩

end Entry

/-- **Without states, a pass changes nothing but the plan.** -/
theorem Optimizer.entries_optimize {o : Optimizer σ} (h : ∀ e ∈ o.entries, e.Stateless) :
    o.optimize.optimizer.entries = o.entries :=
  Entry.Stateless.runAll h o.plan

end Dataflow
