import Dataflow.Proofs.Passes
import Dataflow.Proofs.Preservation

/-!
# Histories of a plan

`Reaches allowed p q` says that some series of calls leads from `p` to `q`. Any edit may be called
with any arguments, and what matters is the plan afterwards, whether the call was refused or not. An
operator may also be changed in place, if it keeps its key and the change is `allowed`. Finally the
optimizer may be run, with rules whose transformers themselves do no more than that; every plan that
occurs in the run counts, and so does what an aborted run leaves behind.

The invariants are carried along a history one call at a time, by the lemmas of
`Dataflow.Proofs.Preservation`; a run of the optimizer is taken apart into its rewrites by
`Dataflow.Proofs.Passes`.
-/

namespace Dataflow

/-- The plan `q` can be reached from the plan `p`. -/
inductive Reaches (allowed : Operator → Operator → Prop) : Plan → Plan → Prop
  | refl (p : Plan) : Reaches allowed p p
  | add {p q : Plan} (h : Reaches allowed p q) (op : Operator) : Reaches allowed p (q.add op).plan
  | remove {p q : Plan} (h : Reaches allowed p q) (k : Key) : Reaches allowed p (q.remove k).plan
  | connect {p q : Plan} (h : Reaches allowed p q) (source target : Key) :
    Reaches allowed p (q.connect source target).plan
  | disconnect {p q : Plan} (h : Reaches allowed p q) (source target : Key) :
    Reaches allowed p (q.disconnect source target).2
  | replace {p q : Plan} (h : Reaches allowed p q) (old : Key) (new : Operator) :
    Reaches allowed p (q.replace old new).plan
  | insertBetween {p q : Plan} (h : Reaches allowed p q) (after between before : Key) :
    Reaches allowed p (q.insertBetween after between before).plan
  | removeAndReconnect {p q : Plan} (h : Reaches allowed p q) (k : Key) :
    Reaches allowed p (q.removeAndReconnect k).plan
  /-- The other plan has a history of its own, which starts from nothing. -/
  | merge {p q r : Plan} (h : Reaches allowed p q) (hr : Reaches allowed ∅ r) :
    Reaches allowed p (q.merge r).plan
  | trimBelow {p q : Plan} (h : Reaches allowed p q) (k : Key) :
    Reaches allowed p (q.trimBelow k).plan
  | trimAbove {p q : Plan} (h : Reaches allowed p q) (k : Key) :
    Reaches allowed p (q.trimAbove k).plan
  | modify {p q : Plan} (h : Reaches allowed p q) (k : Key) (f : Operator → Operator)
    (hf : ∀ op, q.operator? k = some op → op.SameKey (f op) ∧ allowed op (f op)) :
    Reaches allowed p (q.modify k f)
  | optimize {p r : Plan} {σ : Type} {o : Optimizer σ} (h : Reaches allowed p o.plan)
    (ho : ∀ e ∈ o.entries, ∀ s q k m, q.contains k → e.rule.matchAt q k = some m →
      e.transformer.check s q m = true → Reaches allowed q (e.transformer.transform s q m).1.plan)
    (hr : r ∈ o.optimize.plans) : Reaches allowed p r
  | optimizeUntilStable {p r : Plan} {σ : Type} {o : Optimizer σ} (h : Reaches allowed p o.plan)
    (ho : ∀ e ∈ o.entries, ∀ s q k m, q.contains k → e.rule.matchAt q k = some m →
      e.transformer.check s q m = true → Reaches allowed q (e.transformer.transform s q m).1.plan)
    (hr : r ∈ o.optimizeUntilStable.plans) : Reaches allowed p r

/-- A property of plans that the empty plan has and that no call takes away. -/
structure Lasting (allowed : Operator → Operator → Prop) (P : Plan → Prop) : Prop where
  empty : P ∅
  add : ∀ {p}, P p → ∀ op, P (p.add op).plan
  remove : ∀ {p}, P p → ∀ k, P (p.remove k).plan
  connect : ∀ {p}, P p → ∀ source target, P (p.connect source target).plan
  disconnect : ∀ {p}, P p → ∀ source target, P (p.disconnect source target).2
  replace : ∀ {p}, P p → ∀ old new, P (p.replace old new).plan
  insertBetween : ∀ {p}, P p → ∀ after between before, P (p.insertBetween after between before).plan
  removeAndReconnect : ∀ {p}, P p → ∀ k, P (p.removeAndReconnect k).plan
  merge : ∀ {p q}, P p → P q → P (p.merge q).plan
  modify : ∀ {p : Plan}, P p → ∀ {k f},
    (∀ op, p.operator? k = some op → op.SameKey (f op) ∧ allowed op (f op)) → P (p.modify k f)

variable {allowed : Operator → Operator → Prop} {p q : Plan}

/-- **What lasts, lasts along a history.** By induction on the history. For a run of the optimizer
the induction hypotheses speak of single rewrites, and these make up the run. -/
theorem Reaches.lasting {P : Plan → Prop} (hP : Lasting allowed P) (h : Reaches allowed p q)
    (hp : P p) : P q := by
  induction h with
  | refl p => exact hp
  | add _ op ih => exact hP.add (ih hp) op
  | remove _ k ih => exact hP.remove (ih hp) k
  | connect _ source target ih => exact hP.connect (ih hp) source target
  | disconnect _ source target ih => exact hP.disconnect (ih hp) source target
  | replace _ old new ih => exact hP.replace (ih hp) old new
  | insertBetween _ after between before ih => exact hP.insertBetween (ih hp) after between before
  | removeAndReconnect _ k ih => exact hP.removeAndReconnect (ih hp) k
  | merge _ _ ih ihr => exact hP.merge (ih hp) (ihr hP.empty)
  | trimBelow _ k ih => exact Plan.trim_plan_of (P := P) (fun _ k hq ↦ hP.remove hq k) (ih hp) k _
  | trimAbove _ k ih => exact Plan.trim_plan_of (P := P) (fun _ k hq ↦ hP.remove hq k) (ih hp) k _
  | modify _ k f hf ih => exact hP.modify (ih hp) hf
  | optimize _ _ hr ih iho =>
    exact Optimizer.related_optimize (R := fun p q ↦ P p → P q) (fun _ ↦ id) (fun h h' ↦ h' ∘ h)
      iho _ hr (ih hp)
  | optimizeUntilStable _ _ hr ih iho =>
    exact Optimizer.related_optimizeUntilStable (R := fun p q ↦ P p → P q) (fun _ ↦ id)
      (fun h h' ↦ h' ∘ h) iho _ hr (ih hp)

namespace Plan

/-! ### What lasts -/

/-- Operators stand under their own keys, and the edges fit together. -/
structure Coherent (p : Plan) : Prop where
  keyed : p.Keyed
  linked : p.Linked

/-- **Coherence lasts**, whatever is done to operators in place. -/
theorem lasting_coherent : Lasting allowed Coherent where
  empty := ⟨keyed_empty, linked_empty⟩
  add h op := ⟨h.keyed.add op, h.linked.add op⟩
  remove h k := ⟨h.keyed.remove k, h.linked.remove k⟩
  connect h source target := ⟨h.keyed.connect source target, h.linked.connect source target⟩
  disconnect h source target :=
    ⟨h.keyed.disconnect source target, h.linked.disconnect source target⟩
  replace h old new := ⟨h.keyed.replace h.linked old new, h.linked.replace old new⟩
  insertBetween h after between before :=
    ⟨h.keyed.insertBetween after between before, h.linked.insertBetween after between before⟩
  removeAndReconnect h k := ⟨h.keyed.removeAndReconnect k, h.linked.removeAndReconnect k⟩
  merge h h' := ⟨h.keyed.merge h'.keyed, h.linked.merge h'.linked⟩
  modify h _ f hf := ⟨h.keyed.modify fun op hop ↦ (hf op hop).1, h.linked.modify _ f⟩

/-- **Arities last** together with the links, as long as no operator is made to allow less. -/
theorem lasting_respectsArity (hallowed : ∀ op op', allowed op op' → op.KeepsArity op') :
    Lasting allowed fun p ↦ p.Linked ∧ p.RespectsArity where
  empty := ⟨linked_empty, respectsArity_empty⟩
  add h op := ⟨h.1.add op, h.2.add h.1 op⟩
  remove h k := ⟨h.1.remove k, h.2.remove h.1 k⟩
  connect h source target := ⟨h.1.connect source target, h.2.connect source target⟩
  disconnect h source target := ⟨h.1.disconnect source target, h.2.disconnect source target⟩
  replace h old new := ⟨h.1.replace old new, h.2.replace h.1 old new⟩
  insertBetween h after between before :=
    ⟨h.1.insertBetween after between before, h.2.insertBetween after between before⟩
  removeAndReconnect h k := ⟨h.1.removeAndReconnect k, h.2.removeAndReconnect h.1 k⟩
  merge h h' := ⟨h.1.merge h'.1, h.2.merge h.1 h'.2 h'.1⟩
  modify h _ f hf := ⟨h.1.modify _ f, h.2.modify fun op hop ↦ hallowed _ _ (hf op hop).2⟩

/-- **What holds of every plan that can be built from nothing.** Operators stand under their own
keys; no entry of either edge table belongs to a missing operator, is empty, repeats itself, has its
own key or names a missing operator; and the two tables are mirror images. If no arity flag is ever
cleared in place, arities are respected as well, so the plan passes `checkInvariants`. -/
theorem invariants_of_history :
    (∀ p, Reaches (fun _ _ ↦ True) ∅ p →
      (∀ k op, p.operator? k = some op → op.key = k) ∧
      (∀ d k l, (p.edgesTowards d).get? k = some l →
        p.contains k ∧ l ≠ [] ∧ l.Nodup ∧ k ∉ l ∧ ∀ j ∈ l, p.contains j) ∧
      ∀ a b, b ∈ p.successors a ↔ a ∈ p.predecessors b) ∧
    ∀ p, Reaches Operator.KeepsArity ∅ p →
      (∀ k op, p.operator? k = some op →
        (1 < p.outDegree k → op.multiOutput) ∧ (1 < p.inDegree k → op.multiInput)) ∧
      p.checkInvariants = .ok () := by
  constructor
  · intro p hp
    have h := hp.lasting lasting_coherent ⟨keyed_empty, linked_empty⟩
    exact ⟨h.keyed, fun _ _ _ ↦ h.linked.entry, h.linked.mem_successors_iff⟩
  · intro p hp
    have hlasting := lasting_respectsArity fun _ _ ↦ id
    obtain ⟨h, ha⟩ := hp.lasting hlasting hlasting.empty
    exact ⟨fun _ _ hop ↦ ⟨ha.outputs hop, ha.inputs hop⟩, checkInvariants_eq_ok_iff.2 ⟨h, ha⟩⟩

theorem reaches_fork : Reaches allowed ∅ fork :=
  (((((((Reaches.refl ∅).add _).add _).add _).add _).connect _ _).connect _ _).connect _ _

/-- An optimizer that takes out the first sink it comes across, and then gives up. -/
def quitter : Optimizer Unit where
  plan := fork
  entries := [{
    rule :=
      { name := "sinks"
        nodes := [.kind .sink]
        edges := []
        required := [true]
        wellFormed := Rule.wellFormed_of_fault?
          (show Rule.fault? "sinks" [.kind .sink] [] [true] = none from rfl) }
    transformer :=
      { walker := fun _ ↦ ⟨"keys", fun p ↦ .ok p.keys⟩
        check := fun _ _ _ ↦ true
        transform := fun _ p m ↦
          (⟨.error (.transform "sinks" "gave up"), (p.remove m.anchor).plan⟩, ()) }
    state := () }]
  config := default

theorem reaches_quitter {p : Plan} (hp : p ∈ quitter.optimize.plans) :
    Reaches Operator.KeepsArity ∅ p := by
  refine .optimize reaches_fork (fun e he s q k m _ _ _ ↦ ?_) hp
  obtain rfl := List.mem_singleton.1 he
  exact (Reaches.refl q).remove m.anchor

/-- The fork after its split has been forbidden to have several outputs. -/
def narrowed : Plan :=
  fork.modify ⟨"flow", 1⟩ fun op ↦ { op with multiOutput := false }

/-- The fork passes the test also after an aborted run of the optimizer, in which it has lost a
sink. The narrowed fork does not pass, but its edges still fit together. -/
theorem invariants_of_history_fork :
    quitter.optimize.answer = .error (.transform "sinks" "gave up") ∧
      quitter.optimize.optimizer.plan = (fork.remove ⟨"flow", 2⟩).plan ∧
      quitter.optimize.optimizer.plan.checkInvariants = .ok () ∧
      (∀ a b, b ∈ narrowed.successors a ↔ a ∈ narrowed.predecessors b) ∧ narrowed.Rejected := by
  have hnarrowed : Reaches (fun _ _ ↦ True) ∅ narrowed :=
    reaches_fork.modify _ _ fun _ _ ↦ ⟨rfl, trivial⟩
  refine ⟨by decide +kernel, by decide +kernel, ?_, ?_, ⟨_, rfl⟩⟩
  · exact (invariants_of_history.2 _ (reaches_quitter (List.mem_cons_self ..))).2
  · exact (invariants_of_history.1 _ hnarrowed).2.2

end Plan

end Dataflow
