import Dataflow.Proofs.Embeddings
import Dataflow.Proofs.Preorder

/-!
# What a match depends on

A search for a match begins at its anchor and goes on along edges. So it never asks about an
operator that the anchor does not lead to, and of those it does ask about it wants to know the kind
and the successors, and nothing else.

This is said with a part of a plan that is closed under successors. If another plan agrees on it
(`Plan.AgreeOn`), the part stands there as well, under the keys that it has
(`Plan.AgreeOn.embeds`), and a search that starts in it finds the same.
-/

namespace Dataflow

namespace Plan

/-- **Plans that agree on a part.** Its operators are of the same kind in both and feed the same
operators in the same order, and these belong to the part. -/
structure AgreeOn (part : Key → Prop) (p q : Plan) : Prop where
  kind_eq : ∀ k, part k → (p.operator? k).map (·.kind) = (q.operator? k).map (·.kind)
  successors_eq : ∀ k, part k → p.successors k = q.successors k
  closed : ∀ k j, part k → j ∈ p.successors k → part j

theorem AgreeOn.embeds {part : Key → Prop} {p q : Plan} (h : p.AgreeOn part q) :
    p.Embeds id part q where
  injective _ _ := id
  kind_eq k hk := (h.kind_eq k hk).symm
  successors_eq k hk := by rw [List.map_id]; exact (h.successors_eq k hk).symm
  closed := h.closed

end Plan

namespace Rule

variable {r : Rule} {p q : Plan} {part : Key → Prop} {k : Key}

theorem matchAt_congr (h : p.AgreeOn part q) (hk : part k) : r.matchAt p k = r.matchAt q k := by
  have hcarried : r.matchAt q k = (r.matchAt p k).map (Match.relabel id) :=
    matchAt_relabel h.embeds hk
  rw [hcarried, Match.relabel_id, Option.map_id, id]

/-- **Matching is local.** If the anchor and all operators that can be reached from it are of the
same kind in two plans and have the same list of successors, any rule is found there in both or in
neither, and bound to the same operators. The rest of the plans does not matter, nor what feeds the
operators, what they are called, or how many edges they may have. It is enough to ask this of what
can be reached in one of the plans. -/
theorem matching_is_local (r : Rule) {p q : Plan} {anchor : Key}
    (h : ∀ k, k = anchor ∨ p.pathExists anchor k →
      (p.operator? k).map (·.kind) = (q.operator? k).map (·.kind) ∧
      p.successors k = q.successors k) : r.matchAt p anchor = r.matchAt q anchor := by
  have hagree : p.AgreeOn (fun k ↦ k = anchor ∨ p.pathExists anchor k) q :=
    { kind_eq := fun k hk ↦ (h k hk).1
      successors_eq := fun k hk ↦ (h k hk).2
      closed := by
        rintro k j (rfl | hk) hj
        · exact .inr (Plan.pathExists_of_mem hj)
        · exact .inr (Plan.pathExists_trans hk (Plan.pathExists_of_mem hj)) }
  exact matchAt_congr hagree (.inl rfl)

/-- A split that feeds another one, directly or through a transform, and a union that both feed. -/
def shortcut : Rule where
  name := "shortcut"
  nodes := [.kind .split, .kind .transform, .kind .split, .kind .union]
  edges := [(0, 1), (1, 2), (2, 3), (0, 3)]
  required := [true, false, true, true]
  wellFormed := wellFormed_of_fault? (show fault? "shortcut"
    [.kind .split, .kind .transform, .kind .split, .kind .union] [(0, 1), (1, 2), (2, 3), (0, 3)]
    [true, false, true, true] = none from rfl)

/-- The tangle with its ring cut up, another source before the union, and a sink of another name
that more than one edge may enter. -/
def frayed : Plan :=
  let feed : Operator := ⟨⟨"walk", 6⟩, "feed", .source, false, false⟩
  let cut := (Plan.tangle.remove ⟨"walk", 0⟩).plan
  let fed := ((cut.add feed).plan.connect feed.key ⟨"walk", 4⟩).plan
  fed.modify ⟨"walk", 5⟩ fun op ↦ { op with name := "store", multiInput := true }

/-- There is no transform, so that position stays empty and the second split is looked for among the
successors of the first. -/
theorem matching_is_local_frayed :
    (∀ k, k = ⟨"walk", 2⟩ ∨ Plan.tangle.pathExists ⟨"walk", 2⟩ k →
      (Plan.tangle.operator? k).map (·.kind) = (frayed.operator? k).map (·.kind) ∧
      Plan.tangle.successors k = frayed.successors k) ∧
    frayed.predecessors ⟨"walk", 4⟩ = [⟨"walk", 2⟩, ⟨"walk", 3⟩, ⟨"walk", 6⟩] ∧
    shortcut.matchAt frayed ⟨"walk", 2⟩ = some ⟨⟨"walk", 2⟩,
      [some ⟨"walk", 2⟩, none, some ⟨"walk", 3⟩, some ⟨"walk", 4⟩]⟩ := by
  have hreach : Plan.tangle.below ⟨"walk", 2⟩ =
      [⟨"walk", 5⟩, ⟨"walk", 4⟩, ⟨"walk", 3⟩] := by cbv
  have h : ∀ k, k = ⟨"walk", 2⟩ ∨ Plan.tangle.pathExists ⟨"walk", 2⟩ k →
      (Plan.tangle.operator? k).map (·.kind) = (frayed.operator? k).map (·.kind) ∧
      Plan.tangle.successors k = frayed.successors k := by
    simp only [Plan.pathExists, hreach, List.contains_iff_mem, ← List.mem_cons]
    decide
  refine ⟨h, by decide, (matching_is_local shortcut h).symm.trans ?_⟩
  decide +kernel

end Rule

end Dataflow
