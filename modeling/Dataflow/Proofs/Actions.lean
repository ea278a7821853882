import Dataflow.Document.Rewrite
import Dataflow.Proofs.Series
import Dataflow.Proofs.Survivors

/-!
# What the actions of a document do to a plan

An action that is wanted goes through. It either takes out one operator and closes the gap, or takes
out everything below an operator that has something below it (`Action.rewrite_cases`), and this is
all that needs to be known of actions: whatever else is said of them here follows from the two
cases. In particular an operator is lost each time, and none is added or changed. Paths between
operators that are left stay as they were, with one exception: if the operator that is trimmed lies
on a cycle, paths that lead to it may be lost.
-/

namespace Dataflow

namespace Plan

variable {p q : Plan}

/-- What feeds something is in the plan. -/
theorem Linked.contains_of_outDegree_pos (h : p.Linked) {k : Key} (hk : 0 < p.outDegree k) :
    p.contains k := by
  obtain ⟨j, hj⟩ := List.exists_mem_of_length_pos hk
  exact (h.contains_of_mem hj).1

end Plan

namespace Action

/-- The action takes out what lies below an operator. -/
def Trims : Action → Prop
  | .trimBelow _ => True
  | .none | .remove _ => False

variable {a : Action} {p : Plan} {m : Match}

/-- **What a wanted action does.** -/
theorem rewrite_cases (h : p.Linked) (hc : a.check p m = true) (rule : String) :
    (∃ k, p.checkBypass k = .ok () ∧ a.rewrite rule p m = ⟨.ok (), p.bypass k⟩) ∨
      a.Trims ∧ ∃ k, p.contains k ∧ 0 < p.outDegree k ∧
        a.rewrite rule p m = ⟨.ok (), (p.trimBelow k).plan⟩ := by
  unfold check at hc
  cases htarget : a.target? m with
  | none => simp [htarget] at hc
  | some k =>
    rw [htarget] at hc
    rw [rewrite, htarget]
    cases a with
    | none => cases hc
    | remove position =>
      have hk : p.checkBypass k = .ok () := by
        cases hcheck : p.checkBypass k with
        | ok u => rfl
        | error e => simp [hcheck, Except.isOk, Except.toBool] at hc
      obtain ⟨op, hop⟩ := Plan.removeAndReconnect_eq hk
      exact .inl ⟨k, hk, by dsimp only; rw [hop]; rfl⟩
    | trimBelow position =>
      have hpos : 0 < p.outDegree k := of_decide_eq_true hc
      have hk := h.contains_of_outDegree_pos hpos
      exact .inr ⟨trivial, k, hk, hpos, by dsimp only; rw [h.trimBelow_eq hk]; rfl⟩

section Wanted

variable (hp : p.checkInvariants = .ok ()) (hc : a.check p m = true) (rule : String)

include hp hc

/-- **An action that is wanted goes through.** -/
theorem rewrite_answer : (a.rewrite rule p m).answer = .ok () := by
  have h := (Plan.checkInvariants_eq_ok_iff.1 hp).1
  obtain ⟨k, -, heq⟩ | ⟨-, k, -, -, heq⟩ := rewrite_cases h hc rule <;> rw [heq]

theorem checkInvariants_rewrite : (a.rewrite rule p m).plan.checkInvariants = .ok () := by
  obtain ⟨h, ha⟩ := Plan.checkInvariants_eq_ok_iff.1 hp
  rw [Plan.checkInvariants_eq_ok_iff]
  obtain ⟨k, hk, heq⟩ | ⟨-, k, -, -, heq⟩ := rewrite_cases h hc rule
  · obtain ⟨op, hop⟩ := Plan.removeAndReconnect_eq hk
    have hl := h.removeAndReconnect k
    have hla := ha.removeAndReconnect h k
    rw [hop] at hl hla
    rw [heq]
    exact ⟨hl, hla⟩
  · rw [heq]
    exact ⟨h.trim k _, ha.trim h k _⟩

/-- **Nothing is added or changed.** -/
theorem covers_rewrite : p.Covers (a.rewrite rule p m).plan := by
  have h := (Plan.checkInvariants_eq_ok_iff.1 hp).1
  obtain ⟨k, -, heq⟩ | ⟨-, k, hk, -, heq⟩ := rewrite_cases h hc rule
  · rw [heq]
    exact Plan.covers_bypass k
  · rw [heq]
    exact h.covers_trimBelow hk

/-- **Something is lost.** An operator with an edge to another one has something below it that is
not itself, on a cycle or not. -/
theorem exists_gone_rewrite : ∃ k, p.contains k ∧ ¬(a.rewrite rule p m).plan.contains k := by
  have h := (Plan.checkInvariants_eq_ok_iff.1 hp).1
  obtain ⟨k, hk, heq⟩ | ⟨-, k, hk, hpos, heq⟩ := rewrite_cases h hc rule
  · rw [heq]
    exact ⟨k, (Plan.checkBypass_eq_ok_iff.1 hk).1, fun hgone ↦ (Plan.contains_bypass.1 hgone).1 rfl⟩
  · obtain ⟨j, hj⟩ := List.exists_mem_of_length_pos hpos
    have hne : j ≠ k := h.ne_of_mem_successors hj
    rw [heq]
    refine ⟨j, (h.contains_of_mem hj).2, fun hgone ↦ ?_⟩
    exact ((h.contains_trimBelow_iff hk).1 hgone).1 ⟨Plan.pathExists_of_mem hj, hne⟩

/-- **Paths are kept.** -/
theorem thins_rewrite (hcase : p.Acyclic ∨ ¬a.Trims) : p.Thins (a.rewrite rule p m).plan := by
  have h := (Plan.checkInvariants_eq_ok_iff.1 hp).1
  obtain ⟨k, hk, heq⟩ | ⟨htrims, k, hk, -, heq⟩ := rewrite_cases h hc rule
  · rw [heq]
    exact h.thins_bypass (Plan.checkBypass_eq_ok_iff.1 hk).2.1
  · rw [heq]
    exact h.thins_trimBelow (hcase.resolve_right (not_not_intro htrims)) hk

end Wanted

end Action

/-! ### Entries of a document -/

namespace Entry

variable {σ : Type} {e : Entry σ} {sort : Action → Prop}

/-- The transformer carries out an action of this sort, under whatever name and with any of the
built-in walkers. -/
def Performs (sort : Action → Prop) (e : Entry σ) : Prop :=
  ∃ rule a order, sort a ∧ e.transformer = a.transformer σ rule order

/-- The transformer carries out some action of a document. -/
def Scripted (e : Entry σ) : Prop :=
  e.Performs fun _ ↦ True

theorem Scripted.stateless (h : e.Scripted) : e.Stateless := by
  obtain ⟨rule, a, order, -, htransformer⟩ := h
  intro s p m
  rw [htransformer]
  rfl

/-- Some built-in walker lists the anchors, in whatever state. -/
theorem Scripted.exists_order (h : e.Scripted) :
    ∃ order : WalkOrder, ∀ s, e.transformer.walker s = order.walker := by
  obtain ⟨rule, a, order, -, htransformer⟩ := h
  exact ⟨order, fun s ↦ by rw [htransformer]; rfl⟩

/-- **What an attempt comes to.** Either nothing happens to the plan, or an action that is wanted is
carried out. No attempt fails. -/
theorem Performs.tries_cases {p q : Plan} {attempt : Attempt} (h : e.Performs sort)
    (hp : p.checkInvariants = .ok ()) (ht : e.Tries p attempt q) :
    (q = p ∧ attempt.isApplied = false ∧ attempt.isFailed = false) ∨
      ∃ rule a m, sort a ∧ a.check p m = true ∧ q = (a.rewrite rule p m).plan ∧
        attempt = .applied m p q := by
  obtain ⟨rule, a, order, ha, htransformer⟩ := h
  cases ht with
  | gone hk => exact .inl ⟨rfl, rfl, rfl⟩
  | unmatched hk hm => exact .inl ⟨rfl, rfl, rfl⟩
  | rejected s hk hm hc => exact .inl ⟨rfl, rfl, rfl⟩
  | applied s hk hm hc hanswer =>
    rw [htransformer] at hc ⊢
    exact .inr ⟨rule, a, _, ha, hc, rfl, rfl⟩
  | failed s hk hm hc hanswer =>
    rw [htransformer] at hc hanswer
    exact nomatch hanswer.symm.trans (Action.rewrite_answer hp hc rule)

end Entry

end Dataflow
