import Dataflow.Proofs.Matching
import Dataflow.Proofs.Trails

/-!
# Matches are fresh

Rewrites may do anything to a plan, also to the operators and edges at anchors that are still to
come. All the same no transformer is ever shown a match that is out of date. `Entry.Makes` says what
it takes for an attempt to be up to date with a plan and a state of the transformer, and
`Entry.Row.makes` that each attempt at a rule is up to date with what the attempts before it have
left. Plans and states after some attempts are read off the journal by `Attempt.after` and
`Entry.after`; that these are the plans and states that there really are is `Entry.plan_runAll` and
`Entry.entries_runAll`.

Nothing is assumed of plans, walkers and transformers.
-/

namespace Dataflow

variable {σ : Type} {trace : Bool} {notes : Notes} {traces : List RewriteTrace}

/-! ### What an attempt leaves -/

/-- Where the attempt was made. -/
def Attempt.anchor : Attempt → Key
  | .gone k | .unmatched k => k
  | .rejected m _ | .applied m _ _ | .failed m _ _ => m.anchor

/-- The plan after the attempt, if it was `p` before. -/
def Attempt.after (p : Plan) : Attempt → Plan
  | .applied _ _ q | .failed _ _ q => q
  | .gone _ | .unmatched _ | .rejected .. => p

theorem Rule.Admissible.contains_anchor {r : Rule} {p : Plan} {k : Key} {b : Bindings}
    (h : r.Admissible p k b) : p.contains k := by
  obtain ⟨op, -, hop, -⟩ := h.admits h.anchor_bound
  exact Plan.contains_iff.2 ⟨op, hop⟩

namespace Entry

/-- The entry after the attempt: its transformer may have changed its state when it was called. -/
def after (e : Entry σ) : Attempt → Entry σ
  | .applied m p _ | .failed m p _ => { e with state := (e.transformer.transform e.state p m).2 }
  | .gone _ | .unmatched _ | .rejected .. => e

/-- **Attempts that are up to date** with the plan and with the state of the transformer. An anchor
is passed over only if it is gone or if nothing matches there. The transformer is asked about a
match that is one in this plan, and if it wants it, it is called with this match and this plan. -/
inductive Makes (e : Entry σ) (p : Plan) : Attempt → Prop
  | gone {k : Key} (hk : ¬p.contains k) : Makes e p (.gone k)
  | unmatched {k : Key} (hk : p.contains k) (hnone : ¬∃ b, e.rule.Admissible p k b) :
    Makes e p (.unmatched k)
  | rejected {m : Match} (hm : e.rule.Admissible p m.anchor m.bindings)
    (hc : e.transformer.check e.state p m = false) : Makes e p (.rejected m p)
  | applied {m : Match} {q : Plan} (hm : e.rule.Admissible p m.anchor m.bindings)
    (hc : e.transformer.check e.state p m = true)
    (ht : (e.transformer.transform e.state p m).1 = ⟨.ok (), q⟩) : Makes e p (.applied m p q)
  | failed {m : Match} {q : Plan} {reason : OptimizerError}
    (hm : e.rule.Admissible p m.anchor m.bindings) (hc : e.transformer.check e.state p m = true)
    (ht : (e.transformer.transform e.state p m).1 = ⟨.error reason, q⟩) : Makes e p (.failed m p q)

theorem Makes.isTried_iff {e : Entry σ} {p : Plan} {a : Attempt} (h : e.Makes p a) :
    a.isTried ↔ p.contains a.anchor := by
  cases h with
  | gone hk => exact iff_of_false nofun hk
  | unmatched hk => exact iff_of_true rfl hk
  | rejected hm => exact iff_of_true rfl hm.contains_anchor
  | applied hm => exact iff_of_true rfl hm.contains_anchor
  | failed hm => exact iff_of_true rfl hm.contains_anchor

/-! ### The anchors of one rule -/

/-- **What comes of anchors `ks`** that are tried from plan `p` on. -/
structure Row (e : Entry σ) (p : Plan) (ks : List Key) (as : List Attempt)
    (failure : Option OptimizerError) : Prop where
  /-- They are tried in their order. -/
  anchors : as.map Attempt.anchor <+: ks
  /-- Each attempt is up to date with what those before it have left. -/
  makes : ∀ done a rest, as = done ++ a :: rest →
    (done.foldl after e).Makes (done.foldl Attempt.after p) a
  /-- No anchor is left out unless the transformer gives up. -/
  complete : (∀ a ∈ as, ¬a.isFailed) → as.map Attempt.anchor = ks ∧ failure = none
  /-- Where the transformer gives up, nothing follows. -/
  fails : ∀ done m q q' rest, as = done ++ .failed m q q' :: rest → rest = [] ∧
    ∃ reason, failure = some reason ∧
      (e.transformer.transform (done.foldl after e).state q m).1 = ⟨.error reason, q'⟩

namespace Row

variable {e : Entry σ} {p : Plan} {ks : List Key} {as : List Attempt}
  {failure : Option OptimizerError}

theorem nil (e : Entry σ) (p : Plan) : e.Row p [] [] none where
  anchors := List.prefix_rfl
  makes _ _ _ h := absurd h.symm (by simp)
  complete _ := ⟨rfl, rfl⟩
  fails _ _ _ _ _ h := absurd h.symm (by simp)

theorem transformer_after (e : Entry σ) (a : Attempt) :
    (e.after a).transformer = e.transformer := by
  cases a <;> rfl

theorem cons {a : Attempt} (h : e.Makes p a) (hfree : ¬a.isFailed)
    (hrow : (e.after a).Row (a.after p) ks as failure) :
    e.Row p (a.anchor :: ks) (a :: as) failure where
  anchors := List.cons_prefix_cons.2 ⟨rfl, hrow.anchors⟩
  makes done b rest hsplit := by
    obtain ⟨rfl, hb⟩ | ⟨done, rfl, htail⟩ := List.cons_eq_append_iff.1 hsplit
    · obtain ⟨rfl, -⟩ := List.cons_eq_cons.1 hb
      exact h
    · exact hrow.makes done b rest htail
  complete hall := by
    obtain ⟨-, hall⟩ := List.forall_mem_cons.1 hall
    obtain ⟨hks, hnone⟩ := hrow.complete hall
    exact ⟨congrArg (a.anchor :: ·) hks, hnone⟩
  fails done m q q' rest hsplit := by
    obtain ⟨rfl, hb⟩ | ⟨done, rfl, htail⟩ := List.cons_eq_append_iff.1 hsplit
    · obtain ⟨rfl, -⟩ := List.cons_eq_cons.1 hb
      exact absurd rfl hfree
    · have hfails := hrow.fails done m q q' rest htail
      rwa [transformer_after] at hfails

theorem failed {m : Match} {q : Plan} {reason : OptimizerError}
    (hm : e.rule.Admissible p m.anchor m.bindings) (hc : e.transformer.check e.state p m = true)
    (ht : (e.transformer.transform e.state p m).1 = ⟨.error reason, q⟩) (ks : List Key) :
    e.Row p (m.anchor :: ks) [.failed m p q] (some reason) where
  anchors := List.cons_prefix_cons.2 ⟨rfl, List.nil_prefix⟩
  makes done a rest hsplit := by
    obtain ⟨rfl, hb⟩ | ⟨done, rfl, htail⟩ := List.cons_eq_append_iff.1 hsplit
    · obtain ⟨rfl, -⟩ := List.cons_eq_cons.1 hb
      exact .failed hm hc ht
    · exact absurd htail.symm (by simp)
  complete hall := absurd rfl (hall _ (List.mem_singleton_self _))
  fails done m' q₀ q' rest hsplit := by
    obtain ⟨rfl, hb⟩ | ⟨done, rfl, htail⟩ := List.cons_eq_append_iff.1 hsplit
    · cases hb
      exact ⟨rfl, reason, rfl, ht⟩
    · exact absurd htail.symm (by simp)

end Row

/-- By induction on the anchors that remain: what is done at the first of them is up to date with
the plan as it stands, and the others are tried with what it has left. -/
theorem row_tryAnchors (e : Entry σ) (p : Plan) (ks : List Key) :
    e.Row p ks (e.tryAnchors trace p notes ks).attempts
      (e.tryAnchors trace p notes ks).failure := by
  fun_induction tryAnchors trace e p notes ks with
  | case1 e p notes => exact .nil e p
  | case2 e p notes k ks hk ih =>
    exact .cons (.gone (by simpa using hk)) Bool.false_ne_true ih
  | case3 e p notes k ks hk notes₁ hnone ih =>
    have hnone := Rule.not_admissible_of_matchAt hnone
    exact .cons (.unmatched (by simpa using hk) hnone) Bool.false_ne_true ih
  | case4 e p notes k ks hk notes₁ m hm notes₂ hcheck ih =>
    obtain ⟨rfl, hadm⟩ := Rule.admissible_of_matchAt hm
    exact .cons (.rejected hadm (by simpa using hcheck)) Bool.false_ne_true ih
  | case5 e p notes k ks hk notes₁ m hm notes₂ hcheck outcome state htransform reason hanswer =>
    obtain ⟨rfl, hadm⟩ := Rule.admissible_of_matchAt hm
    refine .failed hadm (by simpa using hcheck) ?_ ks
    rw [htransform, ← hanswer]
  | case6 e p notes k ks hk notes₁ m hm notes₂ hcheck before? outcome state htransform hanswer
      record? ih =>
    obtain ⟨rfl, hadm⟩ := Rule.admissible_of_matchAt hm
    -- The others are tried by the entry with the state that it has now.
    have hstate : { e with state } = e.after (.applied m p outcome.plan) := by
      rw [after, htransform]
    refine .cons (.applied hadm (by simpa using hcheck) ?_) Bool.false_ne_true (hstate ▸ ih)
    rw [htransform, ← hanswer]

/-- What is left in the end is what the attempts have left. -/
theorem after_tryAnchors (e : Entry σ) (p : Plan) (ks : List Key) :
    (e.tryAnchors trace p notes ks).entry =
        (e.tryAnchors trace p notes ks).attempts.foldl after e ∧
      (e.tryAnchors trace p notes ks).plan =
        (e.tryAnchors trace p notes ks).attempts.foldl Attempt.after p := by
  fun_induction tryAnchors trace e p notes ks with
  | case1 e p notes => exact ⟨rfl, rfl⟩
  | case2 e p notes k ks hk ih => exact ih
  | case3 e p notes k ks hk notes₁ hnone ih => exact ih
  | case4 e p notes k ks hk notes₁ m hm notes₂ hcheck ih => exact ih
  | case5 e p notes k ks hk notes₁ m hm notes₂ hcheck outcome state htransform reason hanswer =>
    rw [List.foldl_cons, after, htransform]
    exact ⟨rfl, rfl⟩
  | case6 e p notes k ks hk notes₁ m hm notes₂ hcheck before? outcome state htransform hanswer
      record? ih =>
    rw [RuleRun.cons, List.foldl_cons, after, htransform]
    exact ih

/-! ### One rule after the other -/

/-- What comes of a rule that is taken up in plan `p`. -/
inductive Takes (e : Entry σ) (p : Plan) : List Attempt → Option OptimizerError → Prop
  | stopped {cause : PlanError} (hw : (e.transformer.walker e.state).walk p = .error cause) :
    Takes e p [] (some (.plan cause))
  | tried {ks : List Key} {as : List Attempt} {failure : Option OptimizerError}
    (hw : (e.transformer.walker e.state).walk p = .ok ks) (h : e.Row p ks as failure) :
    Takes e p as failure

theorem takes_run (e : Entry σ) (p : Plan) :
    e.Takes p (e.run trace p traces).attempts (e.run trace p traces).failure := by
  rw [run]
  split
  next cause hw => exact .stopped hw
  next ks hw => exact .tried hw (row_tryAnchors e p ks)

theorem after_run (e : Entry σ) (p : Plan) :
    (e.run trace p traces).entry = (e.run trace p traces).attempts.foldl after e ∧
      (e.run trace p traces).plan = (e.run trace p traces).attempts.foldl Attempt.after p := by
  rw [run]
  split
  · exact ⟨rfl, rfl⟩
  · exact after_tryAnchors ..

theorem plan_runAll (es : List (Entry σ)) (p : Plan) :
    (runAll trace traces es p).plan =
      (Journal.attempts (runAll trace traces es p).journal).foldl Attempt.after p := by
  fun_induction runAll trace traces es p with
  | case1 traces p => rfl
  | case2 traces e es p run reason hfailure =>
    rw [Journal.attempts, List.flatMap_singleton]
    exact (after_run e p).2
  | case3 traces e es p run hfailure ih =>
    rw [Pass.cons, Journal.attempts, List.flatMap_cons, List.foldl_append, ← (after_run e p).2]
    exact ih

theorem entries_runAll {es : List (Entry σ)} {p : Plan} {i : Nat} {e : Entry σ}
    (h : es[i]? = some e) :
    (runAll trace traces es p).entries[i]? =
      some ((((runAll trace traces es p).journal.map (·.2)).getD i []).foldl after e) := by
  revert i
  fun_induction runAll trace traces es p
  case case1 =>
    intro i h
    cases h
  case case2 traces d es p run reason hfailure =>
    intro i h
    cases i with
    | zero =>
      obtain rfl : d = e := Option.some.inj h
      exact congrArg some (after_run d p).1
    | succ i => exact h
  case case3 traces d es p run hfailure ih =>
    intro i h
    cases i with
    | zero =>
      obtain rfl : d = e := Option.some.inj h
      exact congrArg some (after_run d p).1
    | succ i => exact ih h

/-- By induction on the rules: each is taken up in the plan that the rows before its own have left,
and only if none of those has failed. -/
theorem takes_runAll {es : List (Entry σ)} {p : Plan} {earlier later : Journal} {name : String}
    {as : List Attempt} (h : (runAll trace traces es p).journal = earlier ++ (name, as) :: later) :
    ∃ e failure, es[earlier.length]? = some e ∧ e.rule.name = name ∧
      e.Takes (earlier.attempts.foldl Attempt.after p) as failure ∧
      (failure ≠ none → later = [] ∧ (runAll trace traces es p).failure = failure) := by
  revert earlier
  fun_induction runAll trace traces es p
  case case1 => exact fun h ↦ absurd h.symm (by simp)
  case case2 traces e es p run reason hfailure =>
    intro earlier h
    have htakes : e.Takes p run.attempts run.failure := takes_run e p
    obtain ⟨rfl, hrow⟩ | ⟨earlier, rfl, htail⟩ := List.cons_eq_append_iff.1 h
    · cases hrow
      exact ⟨e, _, rfl, rfl, htakes, fun _ ↦ ⟨rfl, hfailure.symm⟩⟩
    · exact absurd htail.symm (by simp)
  case case3 traces e es p run hfailure ih =>
    intro earlier h
    have htakes : e.Takes p run.attempts run.failure := takes_run e p
    obtain ⟨rfl, hrow⟩ | ⟨earlier, rfl, htail⟩ := List.cons_eq_append_iff.1 h
    · cases hrow
      exact ⟨e, _, rfl, rfl, htakes, fun hne ↦ absurd hfailure hne⟩
    · -- A later row is one of the other rules, which start from the plan that this one has left.
      obtain ⟨d, outcome, hd, hname, htakes, hlast⟩ := ih htail
      refine ⟨d, outcome, hd, hname, ?_, hlast⟩
      rw [Journal.attempts, List.flatMap_cons, List.foldl_append, ← (after_run e p).2]
      exact htakes

end Entry

/-- **No match is ever out of date.** In a pass, with whatever walkers and transformers, the row of
a rule is about the plan that the rows before it have left. If the rule's walker fails on this plan,
the pass ends with its error. Otherwise the anchors that it lists are tried in their order, each if
it is still in the plan when its turn comes, and all of them unless the transformer gives up. Every
attempt is up to date with the plan and the state that those before it have left: what is checked is
a match in the plan as it stands, and it is rewritten only if, there and then, it was wanted. When a
transformer gives up, nothing follows, and the plan stays as it has left it. -/
theorem Optimizer.matches_are_fresh (o : Optimizer σ) :
    (∀ (earlier later : Journal) name as,
      o.optimize.journal = earlier ++ (name, as) :: later →
      ∃ e p, o.entries[earlier.length]? = some e ∧ e.rule.name = name ∧
        p = earlier.attempts.foldl Attempt.after o.plan ∧
        ((∃ cause, (e.transformer.walker e.state).walk p = .error cause ∧ as = [] ∧ later = [] ∧
            o.optimize.answer = .error (.plan cause)) ∨
          ∃ ks, (e.transformer.walker e.state).walk p = .ok ks ∧
            as.map Attempt.anchor <+: ks ∧
            ((∀ a ∈ as, ¬a.isFailed) → as.map Attempt.anchor = ks) ∧
            (∀ done a rest, as = done ++ a :: rest →
              (done.foldl Entry.after e).Makes (done.foldl Attempt.after p) a ∧
              (a.isTried ↔ (done.foldl Attempt.after p).contains a.anchor)) ∧
            ∀ done m q q' rest, as = done ++ .failed m q q' :: rest →
              rest = [] ∧ later = [] ∧ o.optimize.optimizer.plan = q' ∧
              ∃ reason, o.optimize.answer = .error reason ∧
                (e.transformer.transform (done.foldl Entry.after e).state q m).1 =
                  ⟨.error reason, q'⟩)) ∧
    (∀ report, o.optimize.answer = .ok report → o.optimize.journal.map (·.1) = o.ruleNames) ∧
    o.optimize.optimizer.plan = o.optimize.journal.attempts.foldl Attempt.after o.plan ∧
    ∀ i e, o.entries[i]? = some e → o.optimize.optimizer.entries[i]? =
      some (((o.optimize.journal.map (·.2)).getD i []).foldl Entry.after e) := by
  have hplan : o.optimize.optimizer.plan = o.optimize.journal.attempts.foldl Attempt.after o.plan :=
    Entry.plan_runAll o.entries o.plan
  refine ⟨fun earlier later name as h ↦ ?_, fun report hreport ↦ ?_, hplan, fun i e ↦
    Entry.entries_runAll⟩
  · obtain ⟨e, failure, he, hname, htakes, hlast⟩ := Entry.takes_runAll h
    refine ⟨e, _, he, hname, rfl, ?_⟩
    cases htakes with
    | @stopped cause hw =>
      obtain ⟨hlater, hfailure⟩ := hlast nofun
      exact .inl ⟨cause, hw, rfl, hlater, optimize_answer_eq_error_iff.2 hfailure⟩
    | @tried ks as failure hw hrow =>
      refine .inr ⟨ks, hw, hrow.anchors, fun hall ↦ (hrow.complete hall).1, ?_, ?_⟩
      · intro done a rest hsplit
        have hmakes := hrow.makes done a rest hsplit
        exact ⟨hmakes, hmakes.isTried_iff⟩
      · intro done m q q' rest hsplit
        obtain ⟨hrest, reason, rfl, ht⟩ := hrow.fails done m q q' rest hsplit
        obtain ⟨hlater, hfailure⟩ := hlast nofun
        refine ⟨hrest, hlater, ?_, reason, optimize_answer_eq_error_iff.2 hfailure, ht⟩
        -- The attempt is the last of all, and the last plan is the one that it has left.
        have hattempts : o.optimize.journal.attempts =
            (earlier.attempts ++ done) ++ [.failed m q q'] := by
          rw [h, hlater, hsplit, hrest, Journal.attempts, List.flatMap_append,
            List.flatMap_singleton, ← List.append_assoc]
          rfl
        rw [hplan, hattempts, List.foldl_append]
        rfl
  · exact Entry.names_journal (optimize_answer_eq_ok_iff.1 hreport).1

/-- An optimizer for the fork that takes out the east sink wherever it finds a split. Its walker
lists an operator that is not there, and the split twice. -/
def Optimizer.poacher : Optimizer Unit where
  plan := Plan.fork
  entries :=
    [{ rule := Rule.fanOut
       transformer :=
        { walker := fun _ ↦
            ⟨"round", fun _ ↦ .ok [⟨"flow", 9⟩, ⟨"flow", 1⟩, ⟨"flow", 3⟩, ⟨"flow", 1⟩, ⟨"flow", 0⟩]⟩
          check := fun _ _ _ ↦ true
          transform := fun _ p _ ↦
            let removal := (p.remove ⟨"flow", 3⟩).mapError OptimizerError.plan
            (⟨removal.answer.map fun _ ↦ (), removal.plan⟩, ()) }
       state := () }]
  config := default

/-- At first the split is found with both sinks. When the poacher comes to the east sink, it is
gone. When it comes to the split once more, it is shown what is there now, the split with the west
sink alone. It gives up, and does not come to the source any more. -/
theorem Optimizer.matches_are_fresh_poacher :
    let poached := (Plan.fork.remove ⟨"flow", 3⟩).plan
    let both : Match := ⟨⟨"flow", 1⟩, [some ⟨"flow", 1⟩, some ⟨"flow", 2⟩, some ⟨"flow", 3⟩]⟩
    let west : Match := ⟨⟨"flow", 1⟩, [some ⟨"flow", 1⟩, some ⟨"flow", 2⟩, none]⟩
    let done : List Attempt :=
      [.gone ⟨"flow", 9⟩, .applied both Plan.fork poached, .gone ⟨"flow", 3⟩]
    poacher.optimize.journal = [("fan-out", done ++ [.failed west poached poached])] ∧
      (∃ e, poacher.entries[0]? = some e ∧ e.Makes poached (.failed west poached poached)) ∧
      poacher.optimize.optimizer.plan = poached := by
  intro poached both west done
  have hjournal :
      poacher.optimize.journal = [("fan-out", done ++ [.failed west poached poached])] := by
    decide +kernel
  obtain ⟨e, p, he, -, rfl, hrow⟩ := (matches_are_fresh poacher).1 [] [] _ _ hjournal
  rcases hrow with ⟨_, _, hnil, _⟩ | ⟨ks, -, -, -, hmakes, hfails⟩
  · cases hnil
  · refine ⟨hjournal, ⟨e, he, ?_⟩, (hfails done west poached poached [] rfl).2.2.1⟩
    exact (hmakes done _ [] rfl).1

end Dataflow
