import Dataflow.Proofs.Preorder
import Dataflow.Proofs.Reachability
import Mathlib.Algebra.GroupWithZero.Nat
import Mathlib.Logic.Function.Iterate

/-!
# How many rounds a search takes

The search for reachable keys takes one key at a time from its queue (`Adjacency.round`). The queue
grows by whole lists of neighbours, and a key may wait in it many times. But a list joins the queue
only when its key is visited, and a key is visited once. So the number of rounds is known in advance:
the keys that wait in the beginning and the lengths of all lists that are read
(`Adjacency.exists_stops_sweep`). This holds of any adjacency, for a key that turns up again costs
one round and nothing more.

What the search finds is what paths lead to, and in a plan with mirrored edges the two searches, one
down from the first end and one up from the second, find each other's starts.
-/

namespace Dataflow

namespace Adjacency

variable (a : Adjacency)

/-- One round of a search, on the keys that wait and those that were seen: the first key that waits
is taken off and, unless it was seen, visited, and its neighbours wait from then on. -/
def round : List Key × List Key → List Key × List Key
  | ([], seen) => ([], seen)
  | (k :: rest, seen) =>
    if k ∈ seen then (rest, seen) else (rest ++ neighbours a k, k :: seen)

/-- The lengths of the lists of `ks` together. -/
def degrees (ks : List Key) : Nat :=
  (ks.map fun k ↦ (neighbours a k).length).sum

/-- From `s` on, some key waits before each of `n` rounds and none after them; `found` is what was
seen by then. -/
structure Stops (s : List Key × List Key) (n : Nat) (found : List Key) : Prop where
  waits_iff : ∀ m, (a.round^[m] s).1 ≠ [] ↔ m < n
  result : a.round^[n] s = ([], found)

variable {a}

theorem iterate_round_nil (seen : List Key) (m : Nat) : a.round^[m] ([], seen) = ([], seen) :=
  Function.iterate_fixed rfl m

theorem stops_nil (seen : List Key) : a.Stops ([], seen) 0 seen where
  waits_iff m := by simp [iterate_round_nil]
  result := rfl

/-- One round more. -/
theorem Stops.cons {k : Key} {rest seen found : List Key} {n : Nat} {s : List Key × List Key}
    (hs : a.round (k :: rest, seen) = s) (h : a.Stops s n found) :
    a.Stops (k :: rest, seen) (n + 1) found where
  waits_iff m := by
    cases m with
    | zero => simp
    | succ m => rw [Function.iterate_succ_apply, hs, h.waits_iff, Nat.succ_lt_succ_iff]
  result := by rw [Function.iterate_succ_apply, hs, h.result]

/-- **A search ends.** Every key that waits takes a round, and so does every neighbour of a key that
is visited on the way. -/
theorem exists_stops_sweep (queue seen : List Key) :
    ∃ n, a.Stops (queue, seen) n (sweep a queue seen) ∧
      n + a.degrees seen = queue.length + a.degrees (sweep a queue seen) := by
  induction queue, seen using sweep_induction a with
  | nil seen =>
    rw [sweep_nil]
    exact ⟨0, stops_nil seen, rfl⟩
  | skip k rest seen hk ih =>
    obtain ⟨n, hn, hcount⟩ := ih
    rw [sweep_of_mem a rest hk, List.length_cons]
    exact ⟨n + 1, hn.cons (if_pos hk), by omega⟩
  | visit k rest seen hk ih =>
    obtain ⟨n, hn, hcount⟩ := ih
    rw [sweep_of_not_mem a rest hk, List.length_cons]
    refine ⟨n + 1, hn.cons (if_neg hk), ?_⟩
    -- The neighbours of `k` are in the queue, and `k` counts as seen.
    rw [List.length_append, degrees, List.map_cons, List.sum_cons, ← degrees] at hcount
    omega

theorem stops_closure (start : Key) :
    a.Stops (neighbours a start, []) ((neighbours a start).length + a.degrees (a.closure start))
      (a.closure start) := by
  obtain ⟨n, hn, hcount⟩ := exists_stops_sweep (a := a) (neighbours a start) []
  obtain rfl : n = (neighbours a start).length + a.degrees (a.closure start) := hcount
  exact hn

end Adjacency

namespace Plan

variable {p : Plan} {k j : Key}

theorem pathExists_iff_transGen :
    p.pathExists k j ↔ Relation.TransGen (fun u v ↦ p.hasEdge u v) k j := by
  have hstep : Adjacency.Step p.succs = fun u v ↦ (p.hasEdge u v : Prop) :=
    funext₂ fun u v ↦ propext hasEdge_iff.symm
  rw [pathExists_iff, Adjacency.Leads, hstep]

/-- Searches down and up find the same paths. -/
theorem Linked.mem_below_iff_mem_above (h : p.Linked) : j ∈ p.below k ↔ k ∈ p.above j :=
  Adjacency.mem_closure_iff.trans (h.leads_preds_iff.symm.trans Adjacency.mem_closure_iff.symm)

end Plan

namespace Adjacency

/-- **Searches end and are exact.** In any adjacency and from any key, the search is over after as
many rounds as there are neighbours of the start and of the keys that are found, each time they are
listed, and not before. What is found are the keys to which a path of one or more steps leads, each
once. So in a plan whose edges are mirrored, `pathExists` is the transitive closure of its edges, and
one operator is found below another exactly if the other is found above it. -/
theorem closures_exact :
    (∀ (a : Adjacency) (start : Key),
      a.Stops (neighbours a start, [])
        ((neighbours a start).length + a.degrees (a.closure start)) (a.closure start) ∧
      (a.closure start).Nodup ∧
      ∀ k, k ∈ a.closure start ↔ Relation.TransGen (fun i j ↦ j ∈ neighbours a i) start k) ∧
    ∀ p : Plan, p.Linked → ∀ k j,
      (p.pathExists k j ↔ Relation.TransGen (fun u v ↦ p.hasEdge u v) k j) ∧
      (j ∈ closure p.succs k ↔ k ∈ closure p.preds j) :=
  ⟨fun _ start ↦ ⟨stops_closure start, nodup_closure start, fun _ ↦ mem_closure_iff⟩,
    fun _ h _ _ ↦ ⟨Plan.pathExists_iff_transGen, h.mem_below_iff_mem_above⟩⟩

/-- A table that no plan would have: a key is its own neighbour and lists another one twice, one has
an empty list, and one is listed without having an entry. -/
def ragged : Adjacency :=
  .ofList [(⟨"", 0⟩, [⟨"", 1⟩, ⟨"", 1⟩, ⟨"", 0⟩]), (⟨"", 1⟩, [⟨"", 7⟩, ⟨"", 0⟩]), (⟨"", 3⟩, [])]

/-- From the first key it takes eight rounds to find three keys, the first among them. In the tangle
an operator of the ring is found from itself in either direction, and the root is not. -/
theorem closures_exact_ragged :
    ragged.Stops ([⟨"", 1⟩, ⟨"", 1⟩, ⟨"", 0⟩], []) 8 [⟨"", 7⟩, ⟨"", 0⟩, ⟨"", 1⟩] ∧
      Relation.TransGen (fun i j ↦ j ∈ neighbours ragged i) ⟨"", 0⟩ ⟨"", 7⟩ ∧
      ¬Relation.TransGen (fun i j ↦ j ∈ neighbours ragged i) ⟨"", 0⟩ ⟨"", 3⟩ ∧
      Plan.tangle.Linked ∧
      Relation.TransGen (fun u v ↦ Plan.tangle.hasEdge u v) ⟨"walk", 0⟩ ⟨"walk", 0⟩ ∧
      ¬Relation.TransGen (fun u v ↦ Plan.tangle.hasEdge u v) ⟨"walk", 2⟩ ⟨"walk", 2⟩ ∧
      ⟨"walk", 2⟩ ∈ closure Plan.tangle.preds ⟨"walk", 5⟩ := by
  have hfound : ragged.closure ⟨"", 0⟩ = [⟨"", 7⟩, ⟨"", 0⟩, ⟨"", 1⟩] := by cbv
  have h : Plan.tangle.Linked := (Plan.checkInvariants_eq_ok_iff.1 (by decide)).1
  have hring : Plan.tangle.pathExists ⟨"walk", 0⟩ ⟨"walk", 0⟩ = true := by cbv
  have hroot : Plan.tangle.pathExists ⟨"walk", 2⟩ ⟨"walk", 2⟩ = false := by cbv
  have hbelow : ⟨"walk", 5⟩ ∈ closure Plan.tangle.succs ⟨"walk", 2⟩ :=
    List.contains_iff_mem.1 (show Plan.tangle.pathExists ⟨"walk", 2⟩ ⟨"walk", 5⟩ = true by cbv)
  obtain ⟨hsearch, hplan⟩ := closures_exact
  obtain ⟨hstops, -, hmem⟩ := hsearch ragged ⟨"", 0⟩
  rw [hfound] at hstops hmem
  refine ⟨hstops, (hmem _).1 (by decide), fun hbad ↦ absurd ((hmem _).2 hbad) (by decide), h,
    (hplan _ h _ _).1.1 hring, fun hbad ↦ ?_, (hplan _ h _ _).2.1 hbelow⟩
  cases hroot.symm.trans ((hplan _ h _ _).1.2 hbad)

end Adjacency

end Dataflow
