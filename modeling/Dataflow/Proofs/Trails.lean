import Dataflow.Proofs.Journals

/-!
# The trail of a pass

A pass is a series of attempts, each made in the plan that the one before has left. `Entry.Tries` is
one attempt: what is known of the plan when it is made, and the plan afterwards. `Trail` is a series
of them, and `Optimizer.trail_optimize` says that the journal of a pass is one. So what attempts
preserve holds before each of them (`Trail.exists_tries`), and the operators that they take out add
up (`Trail.countP_add_le`). What a pass answers is read off its trail as well: it fails because a
transformer gives up or a walker does (`Optimizer.exists_failed_of_optimize`).
-/

namespace Dataflow

/-- Whether the transformer gave up. -/
def Attempt.isFailed : Attempt → Bool
  | .failed .. => true
  | _ => false

variable {σ : Type} {trace : Bool} {notes : Notes} {traces : List RewriteTrace}

namespace Entry

/-- **One attempt** with the entry in some state, from one plan to another one. -/
inductive Tries (e : Entry σ) : Plan → Attempt → Plan → Prop
  | gone {p : Plan} {k : Key} (hk : ¬p.contains k) : Tries e p (.gone k) p
  | unmatched {p : Plan} {k : Key} (hk : p.contains k) (hm : e.rule.matchAt p k = none) :
    Tries e p (.unmatched k) p
  | rejected {p : Plan} {k : Key} {m : Match} (s : σ) (hk : p.contains k)
    (hm : e.rule.matchAt p k = some m) (hc : e.transformer.check s p m = false) :
    Tries e p (.rejected m p) p
  | applied {p : Plan} {k : Key} {m : Match} (s : σ) (hk : p.contains k)
    (hm : e.rule.matchAt p k = some m) (hc : e.transformer.check s p m = true)
    (ha : (e.transformer.transform s p m).1.answer = .ok ()) :
    Tries e p (.applied m p (e.transformer.transform s p m).1.plan)
      (e.transformer.transform s p m).1.plan
  | failed {p : Plan} {k : Key} {m : Match} {reason : OptimizerError} (s : σ) (hk : p.contains k)
    (hm : e.rule.matchAt p k = some m) (hc : e.transformer.check s p m = true)
    (ha : (e.transformer.transform s p m).1.answer = .error reason) :
    Tries e p (.failed m p (e.transformer.transform s p m).1.plan)
      (e.transformer.transform s p m).1.plan

theorem Tries.of_sameAs {e e' : Entry σ} {p q : Plan} {a : Attempt} (h : e'.Tries p a q)
    (he : e.SameAs e') : e.Tries p a q := by
  obtain ⟨rule, transformer, state⟩ := e
  obtain ⟨rule', transformer', state'⟩ := e'
  obtain ⟨rfl, rfl⟩ := he
  cases h with
  | gone hk => exact .gone hk
  | unmatched hk hm => exact .unmatched hk hm
  | rejected s hk hm hc => exact .rejected s hk hm hc
  | applied s hk hm hc ha => exact .applied s hk hm hc ha
  | failed s hk hm hc ha => exact .failed s hk hm hc ha

end Entry

/-- **A series of attempts** with some of the entries, each in the plan that the one before has
left. -/
inductive Trail (es : List (Entry σ)) : Plan → List Attempt → Plan → Prop
  | nil (p : Plan) : Trail es p [] p
  | cons {e : Entry σ} {p q r : Plan} {a : Attempt} {rest : List Attempt} (he : e ∈ es)
    (h : e.Tries p a q) (hrest : Trail es q rest r) : Trail es p (a :: rest) r

namespace Trail

variable {es : List (Entry σ)} {p q r : Plan} {as bs : List Attempt}

theorem append (h : Trail es p as q) (h' : Trail es q bs r) : Trail es p (as ++ bs) r := by
  induction h with
  | nil p => exact h'
  | cons he ha _ ih => exact .cons he ha (ih h')

theorem mono {es' : List (Entry σ)} (h : Trail es p as q)
    (hes : ∀ e ∈ es, ∃ e' ∈ es', e'.SameAs e) : Trail es' p as q := by
  induction h with
  | nil p => exact .nil p
  | cons he ha _ ih =>
    obtain ⟨e', he', hsame⟩ := hes _ he
    exact .cons he' (ha.of_sameAs hsame) ih

section Invariant

variable {I : Plan → Prop} (hI : ∀ e ∈ es, ∀ p a q, I p → e.Tries p a q → I q)

include hI

/-- What attempts preserve holds of every plan in which an attempt is made. -/
theorem exists_tries (h : Trail es p as q) (hp : I p) {a : Attempt} (ha : a ∈ as) :
    ∃ e ∈ es, ∃ p' q', I p' ∧ e.Tries p' a q' := by
  induction h with
  | nil p => cases ha
  | @cons e p q r b rest he hb _ ih =>
    rcases List.mem_cons.1 ha with rfl | ha
    · exact ⟨e, he, p, q, hp, hb⟩
    · exact ih (hI e he p b q hp hb) ha

/-- **A trail has as many rewrites as it takes operators out, at most**, if each rewrite takes one
out and no attempt puts one in. -/
theorem countP_add_le (hsize : ∀ e ∈ es, ∀ p a q, I p → e.Tries p a q →
    (if a.isApplied then 1 else 0) + q.size ≤ p.size) (h : Trail es p as q) (hp : I p) :
    as.countP Attempt.isApplied + q.size ≤ p.size := by
  induction h with
  | nil p => exact Nat.le_of_eq (Nat.zero_add _)
  | @cons e p q r b rest he hb _ ih =>
    have hfirst := hsize e he p b q hp hb
    have hrest := ih (hI e he p b q hp hb)
    rw [List.countP_cons]
    omega

end Invariant

end Trail

/-! ### A pass is a trail -/

namespace Entry

theorem trail_tryAnchors (e : Entry σ) (p : Plan) (ks : List Key) :
    Trail [e] p (e.tryAnchors trace p notes ks).attempts (e.tryAnchors trace p notes ks).plan := by
  fun_induction tryAnchors trace e p notes ks with
  | case1 e p notes => exact .nil p
  | case2 e p notes k ks hk ih =>
    exact .cons (List.mem_singleton_self e) (.gone (by simpa using hk)) ih
  | case3 e p notes k ks hk notes₁ hnone ih =>
    exact .cons (List.mem_singleton_self e) (.unmatched (by simpa using hk) hnone) ih
  | case4 e p notes k ks hk notes₁ m hm notes₂ hcheck ih =>
    exact .cons (List.mem_singleton_self e)
      (.rejected e.state (by simpa using hk) hm (by simpa using hcheck)) ih
  | case5 e p notes k ks hk notes₁ m hm notes₂ hcheck outcome state htransform reason hanswer =>
    have hanswer' : (e.transformer.transform e.state p m).1.answer = .error reason := by
      rw [htransform]
      exact hanswer
    have hstep := Tries.failed e.state (by simpa using hk) hm (by simpa using hcheck) hanswer'
    rw [htransform] at hstep
    exact .cons (List.mem_singleton_self e) hstep (.nil _)
  | case6 e p notes k ks hk notes₁ m hm notes₂ hcheck before? outcome state htransform hanswer
      record? ih =>
    have hstep := Tries.applied e.state (by simpa using hk) hm
      (by simpa using hcheck) (htransform ▸ hanswer)
    rw [htransform] at hstep
    refine .cons (List.mem_singleton_self e) hstep (ih.mono fun e' he' ↦ ?_)
    obtain rfl := List.mem_singleton.1 he'
    exact ⟨e, List.mem_singleton_self e, rfl, rfl⟩

theorem trail_run (e : Entry σ) (p : Plan) :
    Trail [e] p (e.run trace p traces).attempts (e.run trace p traces).plan := by
  rw [run]
  split
  · exact .nil p
  · exact trail_tryAnchors ..

theorem trail_runAll (es : List (Entry σ)) (p : Plan) :
    Trail es p (Journal.attempts (runAll trace traces es p).journal)
      (runAll trace traces es p).plan := by
  have hhead : ∀ (e : Entry σ) (es : List (Entry σ)), ∀ d ∈ [e], ∃ e' ∈ e :: es, e'.SameAs d :=
    fun e es d hd ↦ ⟨d, List.mem_singleton.1 hd ▸ List.mem_cons_self .., rfl, rfl⟩
  have htail : ∀ (e : Entry σ) (es : List (Entry σ)), ∀ d ∈ es, ∃ e' ∈ e :: es, e'.SameAs d :=
    fun e es d hd ↦ ⟨d, .tail _ hd, rfl, rfl⟩
  fun_induction runAll trace traces es p with
  | case1 traces p => exact .nil p
  | case2 traces e es p run reason hfailure =>
    rw [Journal.attempts, List.flatMap_singleton]
    exact (trail_run e p).mono (hhead e es)
  | case3 traces e es p run hfailure ih =>
    rw [Pass.cons, Journal.attempts, List.flatMap_cons]
    exact ((trail_run e p).mono (hhead e es)).append (ih.mono (htail e es))

end Entry

theorem Optimizer.trail_optimize (o : Optimizer σ) :
    Trail o.entries o.plan (Journal.attempts o.optimize.journal) o.optimize.optimizer.plan :=
  Entry.trail_runAll o.entries o.plan

/-! ### Why a pass fails -/

namespace Entry

theorem exists_failed_of_tryAnchors {e : Entry σ} {p : Plan} {ks : List Key}
    {reason : OptimizerError} (h : (e.tryAnchors trace p notes ks).failure = some reason) :
    ∃ a ∈ (e.tryAnchors trace p notes ks).attempts, a.isFailed := by
  fun_induction tryAnchors trace e p notes ks <;> simp_all [Attempt.isFailed, RuleRun.cons]

theorem exists_failed_of_run {e : Entry σ} {p : Plan} {reason : OptimizerError}
    (h : (e.run trace p traces).failure = some reason) :
    (∃ a ∈ (e.run trace p traces).attempts, a.isFailed) ∨
      ∃ cause, (e.transformer.walker e.state).walk (e.run trace p traces).plan = .error cause ∧
        reason = .plan cause := by
  rw [run] at h ⊢
  rcases hwalk : (e.transformer.walker e.state).walk p with cause | anchors
  · rw [hwalk] at h
    exact .inr ⟨cause, hwalk, (Option.some.inj h).symm⟩
  · rw [hwalk] at h
    exact .inl (exists_failed_of_tryAnchors h)

/-- **A pass fails because a transformer gives up, or because a walker fails** on the plan as it is
then. -/
theorem exists_failed_of_runAll {es : List (Entry σ)} {p : Plan} {reason : OptimizerError}
    (h : (runAll trace traces es p).failure = some reason) :
    (∃ a ∈ Journal.attempts (runAll trace traces es p).journal, a.isFailed) ∨
      ∃ e ∈ es, ∃ s cause,
        (e.transformer.walker s).walk (runAll trace traces es p).plan = .error cause ∧
          reason = .plan cause := by
  fun_induction runAll trace traces es p with
  | case1 traces p => cases h
  | case2 traces e es p run reason' hfailure =>
    obtain rfl := Option.some.inj h
    rcases exists_failed_of_run hfailure with ⟨a, ha, hfailed⟩ | ⟨cause, hwalk, hreason⟩
    · exact .inl ⟨a, by rwa [Journal.attempts, List.flatMap_singleton], hfailed⟩
    · exact .inr ⟨e, List.mem_cons_self .., e.state, cause, hwalk, hreason⟩
  | case3 traces e es p run hfailure ih =>
    rcases ih h with ⟨a, ha, hfailed⟩ | ⟨d, hd, s, cause, hwalk, hreason⟩
    · exact .inl ⟨a, List.mem_append_right _ ha, hfailed⟩
    · exact .inr ⟨d, .tail _ hd, s, cause, hwalk, hreason⟩

end Entry

theorem Optimizer.exists_failed_of_optimize {o : Optimizer σ} {e : OptimizerError}
    (h : o.optimize.answer = .error e) :
    (∃ a ∈ o.optimize.journal.attempts, a.isFailed) ∨
      ∃ d ∈ o.entries, ∃ s cause,
        (d.transformer.walker s).walk o.optimize.optimizer.plan = .error cause ∧ e = .plan cause :=
  Entry.exists_failed_of_runAll (optimize_answer_eq_error_iff.1 h)

end Dataflow
