import Dataflow.Proofs.Cycles
import Dataflow.Proofs.Rendering
import Dataflow.Walk.Dependency
import Dataflow.Walk.DepthFirst

/-!
# Plans that look alike

A snapshot has names and lists of successors. That is the graph, and for each operator the order of
what it feeds (`Plan.Alike`); the lists of predecessors are not in it and are only known up to their
order (`SameGraph.predecessors_perm`). Roots, degrees and counters are read from these lists, but
only their lengths matter there, and a rendering sorts them.

Whatever goes along the lists of predecessors themselves may tell apart plans that look alike. Among
the walks this is the reverse dependency order.
-/

namespace Dataflow

namespace Plan

variable {p q : Plan}

/-! ### What depends on the graph -/

/-- Predecessors are known from the graph, up to their order. -/
theorem SameGraph.predecessors_perm (hg : p.SameGraph q) (h : p.Linked) (h' : q.Linked) (k : Key) :
    (p.predecessors k).Perm (q.predecessors k) := by
  have hnodup : (p.predecessors k).Nodup := h.nodup_predecessors k
  have hnodup' : (q.predecessors k).Nodup := h'.nodup_predecessors k
  refine (List.perm_ext_iff_of_nodup hnodup hnodup').2 fun j ↦ ?_
  rw [← h.mem_successors_iff, ← h'.mem_successors_iff, ← Plan.hasEdge_iff, ← Plan.hasEdge_iff]
  exact hg.hasEdge_iff j k

theorem SameGraph.inDegree_eq (hg : p.SameGraph q) (h : p.Linked) (h' : q.Linked) (k : Key) :
    p.inDegree k = q.inDegree k :=
  (hg.predecessors_perm h h' k).length_eq

theorem SameGraph.roots_eq (hg : p.SameGraph q) (h : p.Linked) (h' : q.Linked) :
    p.roots = q.roots := by
  rw [h.roots_eq, h'.roots_eq, hg.keys_eq]
  refine List.filter_congr fun k _ ↦ decide_eq_decide.2 ?_
  rw [← List.length_eq_zero_iff, ← List.length_eq_zero_iff]
  exact Eq.congr_left (hg.inDegree_eq h h' k)

theorem SameGraph.size_eq (hg : p.SameGraph q) : p.size = q.size := by
  rw [← length_keys, ← length_keys, hg.keys_eq]

/-- Dependency orders set out alike: with the roots, and with one count for each operator. -/
theorem SameGraph.releaseForward_eq (hg : p.SameGraph q) (h : p.Linked) (h' : q.Linked) :
    p.releaseForward = q.releaseForward := by
  have hpending : p.releaseForward.pending = q.releaseForward.pending := by
    refine Table.ext_get? fun k ↦ ?_
    have hcount : ∀ r : Plan, r.releaseForward.pending.get? k =
        ((r.operator? k).map (·.name)).map fun _ ↦ (r.inDegree k : Int) := fun r ↦ by
      rw [Option.map_map]
      exact Table.get?_mapWithKey ..
    rw [hcount p, hcount q, hg.name_eq, hg.inDegree_eq h h']
  exact congrArg₂ (Release.mk · · []) hpending (hg.roots_eq h h')

/-! ### What a snapshot has of a plan -/

/-- The same graph, in which every operator lists what it feeds in the same order. -/
structure Alike (p q : Plan) : Prop extends p.SameGraph q where
  succs_eq : p.succs = q.succs

/-- **A snapshot is the graph and the order of successors.** -/
theorem Coherent.snapshot_eq_iff_alike (h : p.Coherent) (h' : q.Coherent) :
    p.snapshot = q.snapshot ↔ p.Alike q := by
  rw [h.snapshot_eq_iff h']
  constructor
  · rintro ⟨hkeys, hsame⟩
    have hsuccs : p.succs = q.succs :=
      (Adjacency.pairs_inj h.linked.pruned_succs h'.linked.pruned_succs).1
        ((h.linked.edges_eq_iff h'.linked hkeys).2 fun k hk ↦ (hsame k hk).2)
    refine ⟨⟨fun k ↦ ?_, fun a b ↦ ?_⟩, hsuccs⟩
    · by_cases hk : k ∈ p.keys
      · obtain ⟨op, hop⟩ := contains_iff.1 (mem_keys_iff.1 hk)
        obtain ⟨op', hop'⟩ := contains_iff.1 (mem_keys_iff.1 (hkeys ▸ hk))
        have hname := (hsame k hk).1
        rw [nameOf, nameOf, hop, hop'] at hname
        rw [hop, hop']
        exact congrArg some hname
      · have hk' : k ∉ q.keys := hkeys ▸ hk
        rw [operator?_eq_none (mt mem_keys_iff.2 hk), operator?_eq_none (mt mem_keys_iff.2 hk')]
    · rw [hasEdge, hasEdge, successors, successors, hsuccs]
  · intro hl
    exact ⟨hl.keys_eq, fun k _ ↦
      ⟨hl.nameOf_eq k, congrArg (Adjacency.neighbours · k) hl.succs_eq⟩⟩

namespace Alike

variable (hl : p.Alike q)

include hl

theorem successors_eq (k : Key) : p.successors k = q.successors k :=
  congrArg (Adjacency.neighbours · k) hl.succs_eq

theorem leaves_eq : p.leaves = q.leaves := by
  rw [leaves, leaves, hl.keys_eq, hl.succs_eq]

theorem hasEdge_eq (a b : Key) : p.hasEdge a b = q.hasEdge a b := by
  rw [hasEdge, hasEdge, hl.successors_eq]

theorem pathExists_eq (a b : Key) : p.pathExists a b = q.pathExists a b := by
  rw [pathExists, pathExists, below, below, hl.succs_eq]

/-- A search sees the starts and what is listed below them. -/
theorem depthFirstOrder_eq (h : p.Linked) (h' : q.Linked) :
    p.depthFirstOrder = q.depthFirstOrder := by
  rw [depthFirstOrder, depthFirstOrder, starts, starts, hl.roots_eq h h', hl.keys_eq, hl.succs_eq]

/-- An ordering sees the counts, and which of them an operator brings down and in which order. -/
theorem dependencyOrder_eq (h : p.Linked) (h' : q.Linked) :
    p.dependencyOrder = q.dependencyOrder := by
  rw [dependencyOrder, dependencyOrder, complete, complete, hl.releaseForward_eq h h', hl.succs_eq,
    hl.size_eq]

end Alike

/-- **Plans that look alike behave alike.** If two coherent plans have the same snapshot, they are
rendered alike and agree about their ends, about how many operators and edges there are, about
edges, degrees and paths between any keys, and about the predecessors of an operator up to their
order. In depth-first order and in dependency order they are walked alike, with the same complaint
where there is a cycle. -/
theorem snapshot_determines_behaviour (h : p.Coherent) (h' : q.Coherent)
    (hs : p.snapshot = q.snapshot) :
    p.render = q.render ∧ p.roots = q.roots ∧ p.leaves = q.leaves ∧ p.size = q.size ∧
      p.edgeCount = q.edgeCount ∧
      (∀ k, p.inDegree k = q.inDegree k ∧ p.outDegree k = q.outDegree k ∧
        p.successors k = q.successors k ∧ (p.predecessors k).Perm (q.predecessors k)) ∧
      (∀ a b, p.hasEdge a b = q.hasEdge a b ∧ p.pathExists a b = q.pathExists a b) ∧
      Walker.depthFirst.walk p = Walker.depthFirst.walk q ∧
      Walker.dependency.walk p = Walker.dependency.walk q := by
  have hl : p.Alike q := (h.snapshot_eq_iff_alike h').1 hs
  have hg : p.SameGraph q := hl.toSameGraph
  have hin : ∀ k, p.inDegree k = q.inDegree k := hg.inDegree_eq h.linked h'.linked
  have hout : ∀ k, p.outDegree k = q.outDegree k := fun k ↦
    congrArg List.length (hl.successors_eq k)
  exact ⟨hg.render_eq h.linked h'.linked, hg.roots_eq h.linked h'.linked, hl.leaves_eq, hg.size_eq,
    congrArg Adjacency.pairCount hl.succs_eq,
    fun k ↦ ⟨hin k, hout k, hl.successors_eq k, hg.predecessors_perm h.linked h'.linked k⟩,
    fun a b ↦ ⟨hl.hasEdge_eq a b, hl.pathExists_eq a b⟩,
    congrArg Except.ok (hl.depthFirstOrder_eq h.linked h'.linked),
    hl.dependencyOrder_eq h.linked h'.linked⟩

/-- In whichever order the union is fed, the walks along the edges are the same; the one against
them begins with the union and then goes by that order. -/
theorem snapshot_determines_behaviour_gathered :
    let p := gathered [0, 1]
    let q := gathered [1, 0]
    p ≠ q ∧ p.snapshot = q.snapshot ∧ p.render = q.render ∧ p.roots = q.roots ∧
      Walker.dependency.walk p = Walker.dependency.walk q ∧
      Walker.reverseDependency.walk p ≠ Walker.reverseDependency.walk q := by
  intro p q
  have hs : p.snapshot = q.snapshot := by decide +kernel
  obtain ⟨hrender, hroots, -, -, -, -, -, -, hwalk⟩ :=
    snapshot_determines_behaviour (coherent_gathered [0, 1]) (coherent_gathered [1, 0]) hs
  exact ⟨by decide +kernel, hs, hrender, hroots, hwalk, by decide +kernel⟩

end Plan

end Dataflow
