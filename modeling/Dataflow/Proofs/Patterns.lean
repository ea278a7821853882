import Dataflow.Proofs.Embeddings
import Dataflow.Proofs.RuleEntries
import Mathlib.Data.List.Duplicate
import Mathlib.Logic.Relation
import Mathlib.Order.Bounds.Defs

/-!
# Patterns are rooted at their anchor

The checks of a rule go through its edges in the order in which they are given, but what they amount
to is a condition on the edges as a set, together with their not being repeated. Complaints are
justified likewise: `RuleError.Holds` says of each what it means, and `holds_of_fault?` that it is so.

In a rule that passes, every position but the anchor has a parent, which stands before it. So whoever
climbs from a position to its parent, and on from there, comes to the anchor (`climbs_to_anchor`).
The matcher climbs in this way in search of an operator that is bound. In all states of a search the
anchor is bound (`SearchState.anchor_bound`), hence it finds one at any position, decided or not
(`exists_resolve`).
-/

namespace Dataflow

/-! ### Complaints -/

/-- What a complaint about the parts of a rule says about them. -/
def RuleError.Holds (nodes : List Pattern) (edges : List (Nat × Nat)) (required : List Bool) :
    RuleError → Prop
  | empty _ => nodes = []
  | requiredMismatch _ n m => n = nodes.length ∧ m = required.length ∧ m ≠ n
  | optionalAnchor _ => required[0]? ≠ some true
  | badEdge _ i j => (i, j) ∈ edges ∧ ¬(i < j ∧ j < nodes.length)
  | duplicateEdge _ i j => List.Duplicate (i, j) edges
  | unreachable _ j => 0 < j ∧ j < nodes.length ∧ ∀ e ∈ edges, e.2 ≠ j

namespace Rule

section Parts

variable {name : String} {n : Nat} {nodes : List Pattern} {edges : List (Nat × Nat)}
  {required : List Bool} {e : RuleError}

theorem ofParts_eq_error_iff :
    ofParts name nodes edges required = .error e ↔ fault? name nodes edges required = some e := by
  rw [ofParts]
  split <;> simp_all

/-- The complaint about the edges is about one that leads nowhere, or about one that is repeated or
stands among the earlier ones. -/
theorem exists_of_edgeFault? {earlier : List (Nat × Nat)}
    (h : edgeFault? name n earlier edges = some e) :
    (∃ i j, e = .badEdge name i j ∧ (i, j) ∈ edges ∧ ¬(i < j ∧ j < n)) ∨
      ∃ i j, e = .duplicateEdge name i j ∧
        ((i, j) ∈ earlier ∧ (i, j) ∈ edges ∨ List.Duplicate (i, j) edges) := by
  induction edges generalizing earlier with
  | nil => cases h
  | cons d rest ih =>
    rw [edgeFault?] at h
    split at h
    next hbad =>
      obtain rfl := Option.some.inj h
      exact .inl ⟨d.1, d.2, rfl, List.mem_cons_self .., hbad⟩
    next =>
      split at h
      next hearlier =>
        obtain rfl := Option.some.inj h
        exact .inr ⟨d.1, d.2, rfl, .inl ⟨hearlier, List.mem_cons_self ..⟩⟩
      next =>
        rcases ih h with ⟨i, j, he, hmem, hbad⟩ | ⟨i, j, he, ⟨hearlier, hmem⟩ | hdup⟩
        · exact .inl ⟨i, j, he, .tail _ hmem, hbad⟩
        · refine .inr ⟨i, j, he, ?_⟩
          -- `d` counts among the earlier edges by then.
          rcases List.mem_cons.1 hearlier with rfl | hearlier
          · exact .inr (.cons_mem hmem)
          · exact .inl ⟨hearlier, .tail _ hmem⟩
        · exact .inr ⟨i, j, he, .inr (.cons_duplicate hdup)⟩

theorem unreachable?_eq_some {j : Nat} (h : unreachable? n edges = some j) :
    0 < j ∧ j < n ∧ ∀ d ∈ edges, d.2 ≠ j := by
  have hj := List.find?_some h
  rw [Bool.and_eq_true, decide_eq_true_eq, List.all_eq_true] at hj
  refine ⟨hj.1, List.mem_range.1 (List.mem_of_find?_eq_some h), fun d hd ↦ ?_⟩
  simpa using hj.2 d hd

/-- **Complaints are justified.** -/
theorem holds_of_fault? (h : fault? name nodes edges required = some e) :
    e.Holds nodes edges required := by
  rw [fault?] at h
  split at h
  next hempty =>
    obtain rfl := Option.some.inj h
    exact hempty
  split at h
  next hlength =>
    obtain rfl := Option.some.inj h
    exact ⟨rfl, rfl, hlength⟩
  split at h
  next hanchor =>
    obtain rfl := Option.some.inj h
    exact hanchor
  split at h
  next hedges =>
    obtain rfl := Option.some.inj h
    rcases exists_of_edgeFault? hedges with ⟨i, j, rfl, hbad⟩ | ⟨i, j, rfl, ⟨hnil, -⟩ | hdup⟩
    · exact hbad
    · cases hnil
    · exact hdup
  next =>
    obtain ⟨j, hj, rfl⟩ := Option.map_eq_some_iff.1 h
    exact unreachable?_eq_some hj

end Parts

variable {r : Rule} {p : Plan} {i j : Nat}

/-! ### Parents -/

theorem mem_sources_iff : i ∈ (r.edges.filter (·.2 = j)).map (·.1) ↔ (i, j) ∈ r.edges := by
  simp [List.mem_map, List.mem_filter]

/-- **Parents are the first to feed a position.** -/
theorem parent_eq_some_iff : r.parent j = some i ↔ IsLeast {i | (i, j) ∈ r.edges} i := by
  rw [parent, List.min?_eq_some_iff]
  simp only [mem_sources_iff]
  rfl

theorem parent_zero (r : Rule) : r.parent 0 = none :=
  Option.eq_none_iff_forall_ne_some.2 fun _ hi ↦ Nat.not_lt_zero _ (parent_lt hi)

/-- The least source of an edge to `j` so far, after one more edge has been looked at. -/
def leastSource (j : Nat) (least : Option Nat) (e : Nat × Nat) : Option Nat :=
  if e.2 = j then some (least.elim e.1 (min · e.1)) else least

theorem foldl_leastSource (edges : List (Nat × Nat)) (least : Option Nat) :
    edges.foldl (leastSource j) least =
      (least.toList ++ (edges.filter (·.2 = j)).map (·.1)).min? := by
  induction edges generalizing least with
  | nil => cases least <;> rfl
  | cons e rest ih =>
    rw [List.foldl_cons, ih, leastSource]
    by_cases he : e.2 = j
    · rw [if_pos he, List.filter_cons_of_pos (by simpa using he), List.map_cons]
      -- On either side the minimum is taken from the left.
      cases least <;> rfl
    · rw [if_neg he, List.filter_cons_of_neg (by simpa using he)]

/-- Parents can be gathered in one pass over the edges. -/
theorem parent_eq_foldl (r : Rule) (j : Nat) : r.parent j = r.edges.foldl (leastSource j) none :=
  (foldl_leastSource r.edges none).symm

/-! ### Climbing -/

/-- From a position to its parent. -/
def Climbs (r : Rule) (j i : Nat) : Prop :=
  r.parent j = some i

/-- **Every position hangs on the anchor.** -/
theorem climbs_to_anchor (hj : j < r.size) : Relation.ReflTransGen r.Climbs j 0 := by
  induction j using Nat.strongRecOn with
  | ind j ih =>
    rcases Nat.eq_zero_or_pos j with rfl | hpos
    · exact .refl
    · obtain ⟨i, hi⟩ := exists_parent hpos hj
      have hlt := parent_lt hi
      exact .head hi (ih i hlt (Nat.lt_trans hlt hj))

/-- Where the anchor is bound, there is an operator at every position or above it. -/
theorem exists_nearestBound {b : Bindings} {anchor : Key} (hb : b[0]? = some (some anchor))
    (hj : j < r.size) : ∃ k, r.NearestBound b j k := by
  have hclimbs := climbs_to_anchor hj
  clear hj
  induction hclimbs using Relation.ReflTransGen.head_induction_on with
  | refl => exact ⟨anchor, .here (Option.join_eq_some_iff.2 hb)⟩
  | @head j i hi _ ih =>
    cases hbound : b[j]?.join with
    | some k => exact ⟨k, .here hbound⟩
    | none =>
      obtain ⟨k, hk⟩ := ih
      exact ⟨k, .above hbound hi hk⟩

/-! ### States of a search -/

/-- The states of a search from an anchor, from which others are tried in turn: the next position
is bound to a candidate, or stays empty if it may. -/
inductive SearchState (r : Rule) (p : Plan) (anchor : Key) : Bindings → Prop
  | start : SearchState r p anchor [some anchor]
  | bind {b : Bindings} {k : Key} (h : SearchState r p anchor b) (hb : b.length < r.size)
    (hk : k ∈ r.candidates p b) : SearchState r p anchor (b ++ [some k])
  | skip {b : Bindings} (h : SearchState r p anchor b) (hb : b.length < r.size)
    (hfree : ¬r.isRequired b.length) : SearchState r p anchor (b ++ [none])

/-- **The anchor stays bound.** -/
theorem SearchState.anchor_bound {anchor : Key} {b : Bindings} (h : r.SearchState p anchor b) :
    b[0]? = some (some anchor) := by
  have hprefix : [some anchor] <+: b := by
    induction h with
    | start => exact List.prefix_rfl
    | bind _ _ _ ih => exact ih.trans (List.prefix_append ..)
    | skip _ _ _ ih => exact ih.trans (List.prefix_append ..)
  exact (take_eq_and_getElem?_eq (b := []) hprefix).2

/-- Whatever a state can be completed to is a state as well, so matches are. -/
theorem SearchState.of_completes {anchor : Key} {b d : Bindings} (h : r.SearchState p anchor b)
    (hd : r.Completes p b d) : r.SearchState p anchor d := by
  induction hd with
  | done => exact h
  | bind hb hk _ ih => exact ih (h.bind hb hk)
  | skip hb hfree _ ih => exact ih (h.skip hb hfree)

theorem searchState_of_matchAt {anchor : Key} {m : Match} (h : r.matchAt p anchor = some m) :
    r.SearchState p anchor m.bindings :=
  SearchState.start.of_completes (completes_of_extend (matchAt_eq_some_iff.1 h).2.2)

/-- **The matcher finds an operator wherever it looks for one.** -/
theorem exists_resolve {b : Bindings} {anchor : Key} (hb : b[0]? = some (some anchor))
    (hj : j < r.size) : ∃ k, r.resolve b j = some k ∧ some k ∈ b := by
  obtain ⟨k, hk⟩ := exists_nearestBound hb hj
  exact ⟨k, resolve_eq_some_iff.2 hk, hk.mem⟩

/-! ### Accepted patterns -/

/-- Well-formedness, with edges as pairs of positions. -/
theorem wellFormed_iff_forall {nodes : List Pattern} {edges : List (Nat × Nat)}
    {required : List Bool} :
    WellFormed nodes edges required ↔
      0 < nodes.length ∧ required.length = nodes.length ∧ required[0]? = some true ∧
      (∀ i j, (i, j) ∈ edges → i < j ∧ j < nodes.length) ∧ edges.Nodup ∧
      ∀ j, 0 < j → j < nodes.length → ∃ i, (i, j) ∈ edges := by
  constructor
  · intro h
    refine ⟨List.length_pos_iff.2 h.nodes_ne_nil, h.length_required, h.anchor_required,
      fun i j ↦ h.forward (i, j), h.nodup, fun j h₀ hj ↦ ?_⟩
    obtain ⟨⟨i, j⟩, he, rfl⟩ := h.exists_edge j h₀ hj
    exact ⟨i, he⟩
  · rintro ⟨hpos, hlength, hanchor, hforward, hnodup, hedge⟩
    refine ⟨List.length_pos_iff.1 hpos, hlength, hanchor, fun e ↦ hforward e.1 e.2, hnodup,
      fun j h₀ hj ↦ ?_⟩
    obtain ⟨i, he⟩ := hedge j h₀ hj
    exact ⟨(i, j), he, rfl⟩

/-- **Patterns are accepted exactly if they are well formed, and they are rooted at the anchor.** A
rule can be made of its parts exactly if there is a position, every position has a flag, the first
one is required, edges lead forward to positions that exist, none is repeated, and one ends at every
position but the first. The rule has these parts. Its anchor has no parent, any other position has
the least one from which an edge leads to it, which one pass over the edges gathers whatever their
order; climbing from parent to parent goes down in number and comes to the anchor from everywhere.
In every state of a search, matches included, the anchor is bound, and what is looked up at any
position is one of the operators that are bound. -/
theorem patterns_rooted_at_anchor (name : String) (nodes : List Pattern)
    (edges : List (Nat × Nat)) (required : List Bool) :
    ((∃ r, ofParts name nodes edges required = .ok r) ↔
      0 < nodes.length ∧ required.length = nodes.length ∧ required[0]? = some true ∧
      (∀ i j, (i, j) ∈ edges → i < j ∧ j < nodes.length) ∧ edges.Nodup ∧
      ∀ j, 0 < j → j < nodes.length → ∃ i, (i, j) ∈ edges) ∧
    ∀ r, ofParts name nodes edges required = .ok r →
      r.name = name ∧ r.nodes = nodes ∧ r.edges = edges ∧ r.required = required ∧
      r.parent 0 = none ∧
      (∀ j, 0 < j → j < nodes.length →
        ∃ i, r.parent j = some i ∧ IsLeast {i | (i, j) ∈ edges} i) ∧
      (∀ j, r.parent j = edges.foldl (leastSource j) none) ∧
      (∀ i j, r.parent j = some i → i < j) ∧
      (∀ j < nodes.length, Relation.ReflTransGen r.Climbs j 0) ∧
      ∀ (p : Plan) (anchor : Key),
        (∀ b, r.SearchState p anchor b → b[0]? = some (some anchor) ∧
          ∀ j < nodes.length, ∃ k, r.resolve b j = some k ∧ some k ∈ b) ∧
        ∀ m, r.matchAt p anchor = some m → r.SearchState p anchor m.bindings := by
  refine ⟨exists_ofParts_iff.trans wellFormed_iff_forall, fun r hr ↦ ?_⟩
  obtain ⟨hname, rfl, rfl, rfl⟩ := ofParts_eq_ok_iff.1 hr
  have hparent : ∀ j, 0 < j → j < r.size →
      ∃ i, r.parent j = some i ∧ IsLeast {i | (i, j) ∈ r.edges} i := fun j h₀ hj ↦ by
    obtain ⟨i, hi⟩ := exists_parent h₀ hj
    exact ⟨i, hi, parent_eq_some_iff.1 hi⟩
  refine ⟨hname, rfl, rfl, rfl, r.parent_zero, hparent, r.parent_eq_foldl, fun _ _ ↦ parent_lt,
    fun _ ↦ climbs_to_anchor, fun p anchor ↦ ⟨fun b hb ↦ ?_, fun _ ↦ searchState_of_matchAt⟩⟩
  exact ⟨hb.anchor_bound, fun _ ↦ exists_resolve hb.anchor_bound⟩

/-- A split that feeds a sink, perhaps by way of one or two transforms. -/
def diamond : Rule where
  name := "diamond"
  nodes := [.kind .split, .kind .transform, .kind .transform, .kind .sink]
  edges := [(2, 3), (1, 3), (0, 2), (0, 1)]
  required := [true, false, false, true]
  wellFormed := wellFormed_of_fault? (show fault? "diamond"
    [.kind .split, .kind .transform, .kind .transform, .kind .sink]
    [(2, 3), (1, 3), (0, 2), (0, 1)] [true, false, false, true] = none from rfl)

/-- The sink hangs on the first transform, although its edge comes second. In the fork there are no
transforms, so when the turn of the sink comes, what is looked up at either of them is the split.
Without the last two edges nothing would lead to the first transform. -/
theorem patterns_rooted_at_anchor_diamond :
    ofParts "diamond" diamond.nodes diamond.edges diamond.required = .ok diamond ∧
      diamond.parent 3 = some 1 ∧ IsLeast {i | (i, 3) ∈ diamond.edges} 1 ∧
      Relation.ReflTransGen diamond.Climbs 3 0 ∧
      diamond.SearchState Plan.fork ⟨"flow", 1⟩ [some ⟨"flow", 1⟩, none, none] ∧
      diamond.resolve [some ⟨"flow", 1⟩, none, none] 2 = some ⟨"flow", 1⟩ ∧
      ¬∃ r, ofParts "diamond" diamond.nodes [(2, 3), (1, 3)] diamond.required = .ok r := by
  have hmade : ofParts "diamond" diamond.nodes diamond.edges diamond.required = .ok diamond :=
    ofParts_eq_ok_iff.2 ⟨rfl, rfl, rfl, rfl⟩
  have hstate : diamond.SearchState Plan.fork ⟨"flow", 1⟩ [some ⟨"flow", 1⟩, none, none] :=
    .skip (.skip .start (by decide) (by decide)) (by decide) (by decide)
  have hone : diamond.parent 3 = some 1 := by decide
  obtain ⟨-, h⟩ := patterns_rooted_at_anchor "diamond" diamond.nodes diamond.edges diamond.required
  obtain ⟨-, -, -, -, -, hparent, -, -, hclimbs, hsearch⟩ := h diamond hmade
  obtain ⟨i, hi, hleast⟩ := hparent 3 (by decide) (by decide)
  obtain rfl : 1 = i := Option.some.inj (hone.symm.trans hi)
  obtain ⟨k, hk, hmem⟩ := ((hsearch Plan.fork ⟨"flow", 1⟩).1 _ hstate).2 2 (by decide)
  obtain rfl : k = ⟨"flow", 1⟩ := by simpa using hmem
  refine ⟨hmade, hone, hleast, hclimbs 3 (by decide), hstate, hk, fun hbad ↦ ?_⟩
  obtain ⟨-, -, -, -, -, hedge⟩ :=
    (patterns_rooted_at_anchor "diamond" diamond.nodes _ diamond.required).1.1 hbad
  obtain ⟨i, hi⟩ := hedge 1 (by decide) (by decide)
  simp at hi

end Rule

end Dataflow
