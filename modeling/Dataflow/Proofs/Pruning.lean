import Dataflow.Proofs.Actions
import Dataflow.Proofs.DependencyOrder

/-!
# What the rules of a document leave of a plan

`Plan.Prunes` is what the actions of documents do to a plan, be it one of them or any number: the
plan stays in order, nothing is added or changed, and paths are kept under a condition. The
condition is that there is no cycle or that no action trims. It need only be asked of the plan at
the outset, because pruning makes no cycles.

`Optimizer.series_keeps_paths` reads this off for any calls of an optimizer with such rules, and for
every plan that occurs on the way, also where a walker puts an end to a call.
-/

namespace Dataflow

namespace Plan

variable {sort : Action → Prop} {p q r : Plan}

/-- What actions of this sort do to a plan that is in order. -/
def Prunes (sort : Action → Prop) (p q : Plan) : Prop :=
  p.checkInvariants = .ok () → q.checkInvariants = .ok () ∧ p.Covers q ∧
    ((p.Acyclic ∨ ∀ a, sort a → ¬a.Trims) → p.Thins q)

theorem Prunes.refl (p : Plan) : p.Prunes sort p :=
  fun hp ↦ ⟨hp, .refl p, fun _ ↦ .refl p⟩

theorem Prunes.trans (h : p.Prunes sort q) (h' : q.Prunes sort r) : p.Prunes sort r := by
  intro hp
  obtain ⟨hq, hcovers, hthins⟩ := h hp
  obtain ⟨hr, hcovers', hthins'⟩ := h' hq
  refine ⟨hr, hcovers.trans hcovers', fun hcase ↦ ?_⟩
  -- If there was no cycle at first, there is none in between either.
  have hlinked : q.Linked := (checkInvariants_eq_ok_iff.1 hq).1
  have hcase' : q.Acyclic ∨ ∀ a, sort a → ¬a.Trims :=
    hcase.imp_left ((hthins hcase).acyclic hlinked)
  exact (hthins hcase).trans (hthins' hcase')

end Plan

/-- The rule that is found at every operator of a kind. -/
def Rule.ofKind (kind : Kind) : Rule where
  name := kind.title
  nodes := [.kind kind]
  edges := []
  required := [true]
  wellFormed := Rule.wellFormed_of_fault?
    (show Rule.fault? kind.title [.kind kind] [] [true] = none from rfl)

variable {σ : Type}

theorem Entry.Performs.follows {e : Entry σ} {sort : Action → Prop} (h : e.Performs sort) :
    e.Follows (Plan.Prunes sort) := by
  obtain ⟨rule, a, order, ha, htransformer⟩ := h
  intro s p k m _ _ hc hp
  rw [htransformer] at hc ⊢
  refine ⟨Action.checkInvariants_rewrite hp hc rule, Action.covers_rewrite hp hc rule, ?_⟩
  intro hcase
  exact Action.thins_rewrite hp hc rule (hcase.imp_right fun hsort ↦ hsort a ha)

namespace Optimizer

variable {o : Optimizer σ} {sort : Action → Prop}

/-! ### Rules of documents -/

/-- The plan is in order, and every rule carries out some action of a document. -/
structure Ready (o : Optimizer σ) : Prop where
  checkInvariants : o.plan.checkInvariants = .ok ()
  scripted : ∀ e ∈ o.entries, e.Scripted

/-- What passes make of an optimizer with rules of a document. -/
structure Becomes (o o' : Optimizer σ) : Prop where
  ready : o'.Ready
  entries : o'.entries = o.entries
  prunes : o.plan.Prunes (fun _ ↦ True) o'.plan

theorem Ready.linked (h : o.Ready) : o.plan.Linked :=
  (Plan.checkInvariants_eq_ok_iff.1 h.checkInvariants).1

theorem Ready.becomes (h : o.Ready) : o.Becomes o :=
  ⟨h, rfl, .refl _⟩

/-- **A pass** leaves the rules as they are, and the optimizer ready for more. -/
theorem Becomes.optimize {o' : Optimizer σ} (h : o.Becomes o') :
    o.Becomes o'.optimize.optimizer := by
  have hprunes : o'.plan.Prunes (fun _ ↦ True) o'.optimize.optimizer.plan :=
    related_optimize Plan.Prunes.refl Plan.Prunes.trans
      (fun e he ↦ (h.ready.scripted e he).follows) _ (List.mem_cons_self ..)
  have hentries : o'.optimize.optimizer.entries = o'.entries :=
    entries_optimize fun e he ↦ (h.ready.scripted e he).stateless
  have hready : o'.optimize.optimizer.Ready :=
    ⟨(hprunes h.ready.checkInvariants).1, hentries.symm ▸ h.ready.scripted⟩
  exact ⟨hready, hentries.trans h.entries, h.prunes.trans hprunes⟩

/-- **So does a call.** -/
theorem Ready.call (h : o.Ready) (c : Call) : o.Becomes (o.call c).optimizer :=
  call_of (fun _ ↦ Becomes.optimize) h.becomes c

/-- What is in order stays in order, attempt by attempt. -/
theorem Ready.checkInvariants_of_tries (h : o.Ready) :
    ∀ e ∈ o.entries, ∀ (p : Plan) (attempt : Attempt) (q : Plan), p.checkInvariants = .ok () →
      e.Tries p attempt q → q.checkInvariants = .ok () := by
  intro e he p attempt q hp ht
  obtain ⟨rfl, -⟩ | ⟨rule, a, m, -, hc, rfl, -⟩ := (h.scripted e he).tries_cases hp ht
  · exact hp
  · exact Action.checkInvariants_rewrite hp hc rule

/-- **Every attempt of a call** is made in a plan that is in order. -/
theorem Ready.exists_tries (h : o.Ready) {c : Call} {attempt : Attempt}
    (hattempt : attempt ∈ (o.call c).journal.attempts) :
    ∃ e ∈ o.entries, ∃ p q, p.checkInvariants = .ok () ∧ e.Tries p attempt q := by
  rw [attempts_call] at hattempt
  obtain ⟨run, hrun, hattempt⟩ := List.mem_flatMap.1 hattempt
  obtain ⟨o', ho', rfl⟩ := exists_of_mem_passesOf (fun _ ↦ Becomes.optimize) h.becomes hrun
  rw [← ho'.entries]
  exact o'.trail_optimize.exists_tries ho'.ready.checkInvariants_of_tries
    ho'.ready.checkInvariants hattempt

/-! ### Paths -/

theorem prunes_series (h : ∀ e ∈ o.entries, e.Performs sort) (calls : List Call) :
    ∀ run ∈ o.series calls, ∀ q ∈ run.plans, o.plan.Prunes sort q :=
  related_series Plan.Prunes.refl Plan.Prunes.trans (fun e he ↦ (h e he).follows) calls

/-- **The rules of a document keep paths.** Let a plan be in order, and let every rule carry out an
action of a document, where trimming is only allowed if the plan has no cycle. Then in every plan
that occurs in any series of calls, the operators are operators of the plan as they were at the
outset, and a path leads from one of them to another exactly if one did then. -/
theorem series_keeps_paths (hplan : o.plan.checkInvariants = .ok ())
    (hrules : ∀ e ∈ o.entries, e.Performs fun a ↦ o.plan.Acyclic ∨ ¬a.Trims) (calls : List Call) :
    ∀ run ∈ o.series calls, ∀ q ∈ run.plans,
      (∀ k op, q.operator? k = some op → o.plan.operator? k = some op) ∧
        ∀ a b, q.contains a → q.contains b → (q.pathExists a b ↔ o.plan.pathExists a b) := by
  intro run hrun q hq
  obtain ⟨-, -, hthins⟩ := prunes_series hrules calls run hrun q hq hplan
  have hcase : o.plan.Acyclic ∨ ∀ a : Action, o.plan.Acyclic ∨ ¬a.Trims → ¬a.Trims := by
    by_cases hacyclic : o.plan.Acyclic
    · exact .inl hacyclic
    · exact .inr fun a ha ↦ ha.resolve_left hacyclic
  exact ⟨(hthins hcase).covers, fun a b ↦ (hthins hcase).pathExists_iff⟩

/-- An optimizer with an action for each of some kinds of operators, wherever they are. -/
def ofActions (p : Plan) (rows : List (Kind × Action × WalkOrder)) : Optimizer Unit where
  plan := p
  entries := rows.map fun (kind, a, order) ↦
    { rule := .ofKind kind
      transformer := a.transformer Unit kind.title order
      state := () }
  config := default

theorem performs_ofActions {p : Plan} {rows : List (Kind × Action × WalkOrder)}
    (h : ∀ row ∈ rows, sort row.2.1) : ∀ e ∈ (ofActions p rows).entries, e.Performs sort := by
  intro e he
  obtain ⟨row, hrow, rfl⟩ := List.mem_map.1 he
  exact ⟨row.1.title, row.2.1, row.2.2, h row hrow, rfl⟩

/-- Trims the fork below its split. -/
def trimmer : Optimizer Unit :=
  ofActions .fork [(.split, .trimBelow 0, .dependency)]

/-- Takes the sink out of the plan with feedback, and then gives up because of the cycle. -/
def remover : Optimizer Unit :=
  ofActions .feedback [(.sink, .remove 0, .depthFirst), (.source, .remove 0, .dependency)]

/-- The fork has no cycle, so its split may be trimmed, and the source still feeds the split. With
feedback the sink may be taken out, and the split still lies on a cycle. -/
theorem series_keeps_paths_fork :
    (trimmer.optimize.optimizer.plan.keys = [⟨"flow", 0⟩, ⟨"flow", 1⟩] ∧
        trimmer.optimize.optimizer.plan.pathExists ⟨"flow", 0⟩ ⟨"flow", 1⟩) ∧
      remover.optimize.answer = .error (.plan (.structural (.cycle 1 3))) ∧
      remover.optimize.optimizer.plan.keys = [⟨"loop", 0⟩, ⟨"loop", 1⟩, ⟨"loop", 2⟩] ∧
      remover.optimize.optimizer.plan.pathExists ⟨"loop", 2⟩ ⟨"loop", 2⟩ := by
  have hfork : trimmer.plan.checkInvariants = .ok () := by decide
  have hfeedback : remover.plan.checkInvariants = .ok () := by decide
  have hacyclic : trimmer.plan.Acyclic :=
    (Plan.checkInvariants_eq_ok_iff.1 hfork).1.acyclic_iff_length.2 (by cbv)
  have htrims : ∀ e ∈ trimmer.entries, e.Performs fun a ↦ trimmer.plan.Acyclic ∨ ¬a.Trims :=
    performs_ofActions fun _ _ ↦ .inl hacyclic
  have hremoves : ∀ e ∈ remover.entries, e.Performs fun a ↦ remover.plan.Acyclic ∨ ¬a.Trims :=
    performs_ofActions (by simp [Action.Trims])
  have hrun : ∀ o : Optimizer Unit, o.optimize ∈ o.series [.optimize] := fun _ ↦
    List.mem_cons_self ..
  -- What is left is computed; that paths are kept follows from those at the outset.
  have htrimmed : trimmer.optimize.optimizer.plan.keys = [⟨"flow", 0⟩, ⟨"flow", 1⟩] := by cbv
  have hremoved : remover.optimize.optimizer.plan.keys =
      [⟨"loop", 0⟩, ⟨"loop", 1⟩, ⟨"loop", 2⟩] := by cbv
  obtain ⟨-, hpaths⟩ :=
    series_keeps_paths hfork htrims [.optimize] _ (hrun _) _ (List.mem_cons_self ..)
  obtain ⟨-, hpaths'⟩ :=
    series_keeps_paths hfeedback hremoves [.optimize] _ (hrun _) _ (List.mem_cons_self ..)
  simp only [← Plan.mem_keys_iff, htrimmed, hremoved] at hpaths hpaths'
  refine ⟨⟨htrimmed, (hpaths _ _ (by simp) (by simp)).2 ?_⟩, ?_, hremoved,
    (hpaths' _ _ (by simp) (by simp)).2 ?_⟩
  · cbv
  · cbv
  · cbv

end Optimizer

end Dataflow
