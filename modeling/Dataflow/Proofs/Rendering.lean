import Dataflow.Proofs.Snapshots
import Dataflow.Proofs.Subplans
import Mathlib.Data.List.ProdSigma

/-!
# What a rendering shows

A rendering goes by keys, and sorts each list of neighbours before it is written. So of a list only
its members are left, and all edges together are the pairs of keys, in their order, that are edges
(`Linked.shown_outputs`). In the second half of a rendering these are the pairs that are edges when
read backwards, since the tables are mirror images.

Pairs of keys are told apart by the keys alone. A rendering therefore depends on nothing but the
graph (`Plan.SameGraph`): which operators there are, what they are called and which edges join them.
-/

namespace Dataflow

/-- The order in which pairs of keys are shown: by the first key, and by the second one where the
first is the same. -/
def Key.PairLt : Key × Key → Key × Key → Prop :=
  Prod.Lex (· < ·) (· < ·)

/-- All pairs of keys from a list in order are in order. -/
theorem Key.pairwise_product {ks js : List Key} (hks : ks.Pairwise (· < ·))
    (hjs : js.Pairwise (· < ·)) : (ks ×ˢ js).Pairwise Key.PairLt := by
  refine List.pairwise_flatMap.2 ⟨?_, ?_⟩
  · intro k _
    rw [List.pairwise_map]
    exact hjs.imp fun hlt ↦ .right k hlt
  · refine hks.imp fun hlt e he f hf ↦ ?_
    obtain ⟨j, -, rfl⟩ := List.mem_map.1 he
    obtain ⟨i, -, rfl⟩ := List.mem_map.1 hf
    exact .left j i hlt

theorem Key.nodup_of_pairwise {es : List (Key × Key)} (h : es.Pairwise Key.PairLt) : es.Nodup := by
  refine h.imp fun {e f} hlt heq ↦ ?_
  subst heq
  rcases Prod.lex_iff.1 hlt with hlt | ⟨-, hlt⟩ <;> exact Key.lt_irrefl _ hlt

namespace Plan

/-- **The same graph.** There are operators of the same names under the same keys, and the same
edges between them. -/
structure SameGraph (p q : Plan) : Prop where
  name_eq : ∀ k, (p.operator? k).map (·.name) = (q.operator? k).map (·.name)
  hasEdge_iff : ∀ a b, p.hasEdge a b ↔ q.hasEdge a b

variable {p q : Plan}

/-! ### Operators -/

theorem SameGraph.keys_eq (hg : p.SameGraph q) : p.keys = q.keys := by
  have hnames : (p.ops.mapWithKey fun _ op ↦ op.name) = q.ops.mapWithKey fun _ op ↦ op.name :=
    Table.ext_get? fun k ↦ by
      rw [Table.get?_mapWithKey, Table.get?_mapWithKey]
      exact hg.name_eq k
  have hkeys : ∀ r : Plan, (r.ops.mapWithKey fun _ op ↦ op.name).keys = r.keys :=
    fun _ ↦ List.map_map
  rw [← hkeys p, ← hkeys q, hnames]

theorem SameGraph.nameOf_eq (hg : p.SameGraph q) (k : Key) : p.nameOf k = q.nameOf k := by
  have hname : ∀ r : Plan, r.nameOf k = ((r.operator? k).map (·.name)).getD "?" := fun r ↦ by
    rw [nameOf]
    cases r.operator? k <;> rfl
  rw [hname p, hname q, hg.name_eq]

/-- The names in the order of the keys. -/
theorem map_name_operators (p : Plan) : p.operators.map (·.name) = p.keys.map p.nameOf := by
  have hentry : ∀ e ∈ p.ops.entries, e.2.name = p.nameOf e.1 := fun e he ↦ by
    have hop : p.operator? e.1 = some e.2 := Table.get?_eq_some_iff.2 he
    rw [nameOf, hop]
  simp only [operators, Table.values, keys, Table.keys, List.map_map]
  exact List.map_congr_left hentry

/-! ### Edges -/

/-- The edges in one direction as they are shown, with the near end first. -/
def shown (p : Plan) (d : Direction) : List (Key × Key) :=
  p.keys.flatMap fun k ↦ (Key.sort (Adjacency.neighbours (p.edgesTowards d) k)).map (Prod.mk k)

/-- **Sorting leaves of a list its members.** What is shown are the pairs of keys that are edges. -/
theorem Linked.shown_outputs (h : p.Linked) :
    p.shown .outputs = (p.keys ×ˢ p.keys).filter fun e ↦ p.hasEdge e.1 e.2 := by
  refine Eq.trans (List.flatMap_congr fun k _ ↦ ?_) List.filter_flatMap.symm
  have hsort : Key.sort (p.successors k) = p.keys.filter fun j ↦ p.hasEdge k j := by
    have hkeys := p.ops.sort_eq_filter_keys (h.nodup_successors k)
      fun j hj ↦ mem_keys_iff.2 (h.contains_of_mem hj).2
    rw [hkeys]
    refine List.filter_congr fun j _ ↦ ?_
    rw [hasEdge, List.contains_eq_mem]
  rw [List.filter_map]
  exact congrArg (List.map (Prod.mk k)) hsort

/-- Backwards, the same pairs are looked at from the other end. -/
theorem Linked.shown_inputs (h : p.Linked) :
    p.shown .inputs = (p.keys ×ˢ p.keys).filter fun e ↦ p.hasEdge e.2 e.1 := by
  refine h.reversed.shown_outputs.trans (List.filter_congr fun e _ ↦ ?_)
  rw [Bool.eq_iff_iff, hasEdge_iff, hasEdge_iff]
  exact (h.mem_successors_iff e.2 e.1).symm

theorem Linked.pairwise_shown (h : p.Linked) (d : Direction) :
    (p.shown d).Pairwise Key.PairLt := by
  have hpairs := Key.pairwise_product (pairwise_keys p) (pairwise_keys p)
  cases d with
  | outputs => exact h.shown_outputs ▸ hpairs.filter _
  | inputs => exact h.shown_inputs ▸ hpairs.filter _

theorem Linked.mem_shown_outputs_iff (h : p.Linked) {a b : Key} :
    (a, b) ∈ p.shown .outputs ↔ p.hasEdge a b := by
  rw [h.shown_outputs, List.mem_filter, List.mem_product, mem_keys_iff, mem_keys_iff]
  exact and_iff_right_of_imp fun hab ↦ h.contains_of_mem (hasEdge_iff.1 hab)

theorem Linked.mem_shown_inputs_iff (h : p.Linked) {a b : Key} :
    (a, b) ∈ p.shown .inputs ↔ p.hasEdge b a := by
  rw [h.shown_inputs, List.mem_filter, List.mem_product, mem_keys_iff, mem_keys_iff]
  exact and_iff_right_of_imp fun hab ↦ (h.contains_of_mem (hasEdge_iff.1 hab)).symm

/-- The two halves show the same edges. -/
theorem Linked.shown_inputs_perm (h : p.Linked) :
    (p.shown .inputs).Perm ((p.shown .outputs).map Prod.swap) := by
  have hin := Key.nodup_of_pairwise (h.pairwise_shown .inputs)
  have hout := Key.nodup_of_pairwise (h.pairwise_shown .outputs)
  refine (List.perm_ext_iff_of_nodup hin (hout.map Prod.swap_injective)).2 fun e ↦ ?_
  obtain ⟨a, b⟩ := e
  rw [h.mem_shown_inputs_iff, ← h.mem_shown_outputs_iff]
  exact (List.mem_map_of_injective Prod.swap_injective (a := (b, a))).symm

/-- **What is shown depends on the graph.** -/
theorem SameGraph.shown_eq (hg : p.SameGraph q) (h : p.Linked) (h' : q.Linked) (d : Direction) :
    p.shown d = q.shown d := by
  cases d with
  | outputs =>
    rw [h.shown_outputs, h'.shown_outputs, hg.keys_eq]
    exact List.filter_congr fun e _ ↦ Bool.eq_iff_iff.2 (hg.hasEdge_iff e.1 e.2)
  | inputs =>
    rw [h.shown_inputs, h'.shown_inputs, hg.keys_eq]
    exact List.filter_congr fun e _ ↦ Bool.eq_iff_iff.2 (hg.hasEdge_iff e.2 e.1)

/-! ### The text -/

/-- An edge in a rendering: the names of both ends, and a blank. -/
def edgeText (p : Plan) (e : Key × Key) : String :=
  p.nameOf e.1 ++ "->" ++ p.nameOf e.2 ++ " "

theorem renderEdges_eq (p : Plan) (d : Direction) :
    p.renderEdges d = String.join ((p.shown d).map p.edgeText) := by
  simp only [renderEdges, shown, List.map_flatMap, List.map_map]
  rfl

theorem render_eq (p : Plan) :
    p.render = "Nodes: " ++ String.join (p.keys.map fun k ↦ p.nameOf k ++ " ") ++
      "FromEdges: " ++ String.join ((p.shown .outputs).map p.edgeText) ++
      "ToEdges: " ++ String.join ((p.shown .inputs).map p.edgeText) := by
  have hnames : p.operators.map (·.name ++ " ") = p.keys.map fun k ↦ p.nameOf k ++ " " := by
    have hmap := congrArg (List.map (· ++ " ")) (map_name_operators p)
    rwa [List.map_map, List.map_map] at hmap
  rw [render, hnames, renderEdges_eq, renderEdges_eq]

theorem SameGraph.render_eq (hg : p.SameGraph q) (h : p.Linked) (h' : q.Linked) :
    p.render = q.render := by
  have hname : p.nameOf = q.nameOf := funext hg.nameOf_eq
  have htext : p.edgeText = q.edgeText := funext fun e ↦ by rw [edgeText, edgeText, hname]
  rw [Plan.render_eq, Plan.render_eq, hg.shown_eq h h', hg.shown_eq h h', hg.keys_eq, hname, htext]

/-- **A rendering shows the graph and nothing else.** Plans whose edges are in order and that show
the same graph are rendered alike, in whatever order their edges were added. The text has the names
of all operators in key order, then every edge once, and then every edge once backwards, where both
times the edges are grouped by the end that is named first and go by the other end within a group,
all in key order. -/
theorem rendering_shows_graph (h : p.Linked) (h' : q.Linked) (hg : p.SameGraph q) :
    p.render = q.render ∧
      ∃ along against : List (Key × Key),
        p.render = "Nodes: " ++ String.join (p.keys.map fun k ↦ p.nameOf k ++ " ") ++
          "FromEdges: " ++ String.join (along.map p.edgeText) ++
          "ToEdges: " ++ String.join (against.map p.edgeText) ∧
        (∀ a b, (a, b) ∈ along ↔ p.hasEdge a b) ∧ along.Nodup ∧
        against.Perm (along.map Prod.swap) ∧
        along.Pairwise Key.PairLt ∧ against.Pairwise Key.PairLt :=
  ⟨hg.render_eq h h', p.shown .outputs, p.shown .inputs, Plan.render_eq p,
    fun _ _ ↦ h.mem_shown_outputs_iff, Key.nodup_of_pairwise (h.pairwise_shown .outputs),
    h.shown_inputs_perm, h.pairwise_shown .outputs, h.pairwise_shown .inputs⟩

/-- Edges that are listed in another order are the same edges. -/
theorem sameGraph_of_perm (hops : p.ops = q.ops) (hedges : p.edges.Perm q.edges) :
    p.SameGraph q where
  name_eq k := by rw [operator?, operator?, hops]
  hasEdge_iff a b := by
    have hmem : ∀ r : Plan, r.hasEdge a b ↔ (a, b) ∈ r.edges := fun r ↦ by
      rw [hasEdge_iff, successors, ← Adjacency.map_snd_filter_pairs]
      simp [edges]
    rw [hmem p, hmem q, hedges.mem_iff]

/-- Two splits that feed the same two unions, with the edges added in the given order; names do not
follow keys, and one looks like an edge. -/
def braided (order : List (UInt64 × UInt64)) : Plan :=
  let union (i : UInt64) (name : String) : Operator := ⟨⟨"r", i⟩, name, .union, true, false⟩
  let split (i : UInt64) (name : String) : Operator := ⟨⟨"r", i⟩, name, .split, false, true⟩
  let unions := (((∅ : Plan).add (union 2 "alpha")).plan.add (union 0 "mid")).plan
  let bare := ((unions.add (split 3 "zeta")).plan.add (split 1 "a->b ")).plan
  order.foldl (fun p e ↦ (p.connect ⟨"r", e.1⟩ ⟨"r", e.2⟩).plan) bare

/-- The second plan has all four lists the other way round. -/
theorem rendering_shows_graph_braided :
    let p := braided [(1, 0), (1, 2), (3, 0), (3, 2)]
    let q := braided [(3, 2), (3, 0), (1, 2), (1, 0)]
    p.Linked ∧ q.Linked ∧ p.SameGraph q ∧
      q.successors ⟨"r", 3⟩ = (p.successors ⟨"r", 3⟩).reverse ∧
      q.predecessors ⟨"r", 0⟩ = (p.predecessors ⟨"r", 0⟩).reverse ∧ p ≠ q ∧
      q.render = "Nodes: mid a->b  alpha zeta " ++
        "FromEdges: a->b ->mid a->b ->alpha zeta->mid zeta->alpha " ++
        "ToEdges: mid->a->b  mid->zeta alpha->a->b  alpha->zeta " := by
  intro p q
  have h : p.Linked := (checkInvariants_eq_ok_iff.1 (by decide)).1
  have h' : q.Linked := (checkInvariants_eq_ok_iff.1 (by decide)).1
  have hg : p.SameGraph q := sameGraph_of_perm (by decide) (by decide)
  have htext : p.render = "Nodes: mid a->b  alpha zeta " ++
      "FromEdges: a->b ->mid a->b ->alpha zeta->mid zeta->alpha " ++
      "ToEdges: mid->a->b  mid->zeta alpha->a->b  alpha->zeta " := by
    rw [Plan.render_eq, h.shown_outputs, h.shown_inputs]
    decide +kernel
  obtain ⟨heq, -⟩ := rendering_shows_graph h h' hg
  exact ⟨h, h', hg, by decide, by decide, by decide, heq.symm.trans htext⟩

end Plan

end Dataflow
