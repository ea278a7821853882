import Dataflow.Plan.Snapshot
import Dataflow.Proofs.Histories
import Dataflow.Proofs.JsonText

/-!
# Snapshots and the bytes that are fingerprinted

Between a plan and the bytes its fingerprint is taken of lie three steps, and none of them loses
anything. A snapshot lists operators and edges; it determines the keys, the names and the list of
successors of every operator, because edges are grouped by source and no source is kept with an
empty list. The object a snapshot is written as determines the snapshot, and the compact text of the
object determines the object (`Dataflow.Proofs.JsonText`).

Predecessors are not shown: two plans whose operators are fed in different orders look alike.
-/

namespace Dataflow

/-! ### Snapshots as objects -/

namespace Key

theorem whole_toJson (k : Key) : k.toJson.Whole :=
  .obj (by simp [Json.Whole.str, Json.nat, Json.Whole.int])

theorem toJson_injective : Function.Injective toJson := by
  rintro ⟨scope, id⟩ ⟨scope', id'⟩ h
  simp only [toJson, Json.obj.injEq, List.cons.injEq, Prod.mk.injEq, Json.str.injEq, Json.nat,
    Json.int.injEq, Int.ofNat_inj, UInt64.toNat_inj, true_and, and_true] at h
  rw [h.1, h.2]

end Key

namespace Json

theorem whole_ofList {α : Type} {f : α → Json} (h : ∀ a, (f a).Whole) (l : List α) :
    (ofList f l).Whole :=
  .arr fun v hv ↦ by
    obtain ⟨a, -, rfl⟩ := List.mem_map.1 hv
    exact h a

theorem ofList_injective {α : Type} {f : α → Json} (h : Function.Injective f) :
    Function.Injective (ofList f) :=
  fun _ _ hl ↦ List.map_injective_iff.2 h (Json.arr.inj hl)

end Json

theorem NodeEntry.whole_toJson (e : NodeEntry) : e.toJson.Whole :=
  .obj (by simp [Key.whole_toJson, Json.Whole.str])

theorem NodeEntry.toJson_injective : Function.Injective toJson := by
  rintro ⟨key, name⟩ ⟨key', name'⟩ h
  simp only [toJson, Json.obj.injEq, List.cons.injEq, Prod.mk.injEq, Json.str.injEq, true_and,
    and_true] at h
  rw [Key.toJson_injective h.1, h.2]

namespace Snapshot

theorem whole_edgeToJson (e : Key × Key) : (edgeToJson e).Whole :=
  .arr (by simp [Key.whole_toJson])

theorem edgeToJson_injective : Function.Injective edgeToJson := by
  rintro ⟨a, b⟩ ⟨a', b'⟩ h
  simp only [edgeToJson, Json.arr.injEq, List.cons.injEq, and_true] at h
  rw [Key.toJson_injective h.1, Key.toJson_injective h.2]

theorem whole_toJson (s : Snapshot) : s.toJson.Whole :=
  .obj (by
    simp [Json.whole_ofList NodeEntry.whole_toJson, Json.whole_ofList whole_edgeToJson])

theorem toJson_injective : Function.Injective toJson := by
  rintro ⟨nodes, edges⟩ ⟨nodes', edges'⟩ h
  simp only [toJson, Json.obj.injEq, List.cons.injEq, Prod.mk.injEq, true_and, and_true] at h
  rw [Json.ofList_injective NodeEntry.toJson_injective h.1,
    Json.ofList_injective edgeToJson_injective h.2]

/-- Snapshots are written with the same bytes exactly if they are equal. -/
theorem bytes_eq_iff {s t : Snapshot} :
    s.toJson.compact.toUTF8 = t.toJson.compact.toUTF8 ↔ s = t := by
  rw [String.toUTF8, String.toUTF8, String.toByteArray_inj,
    (whole_toJson s).compact_inj (whole_toJson t), toJson_injective.eq_iff]

end Snapshot

/-! ### Edges grouped by source -/

namespace Adjacency

/-- The neighbours of a key are the far ends of the pairs that begin with it. -/
theorem map_snd_filter_pairs (a : Adjacency) (k : Key) :
    ((pairs a).filter (·.1 = k)).map (·.2) = neighbours a k := by
  have key : ∀ es : List (Key × List Key), (es.Pairwise fun a b ↦ a.1 < b.1) →
      ((es.flatMap fun e ↦ e.2.map fun j ↦ (e.1, j)).filter (·.1 = k)).map (·.2) =
        (es.lookup k).getD [] := by
    intro es asc
    induction es with
    | nil => rfl
    | cons e es ih =>
      obtain ⟨hd, tl⟩ := List.pairwise_cons.1 asc
      rw [List.flatMap_cons, List.filter_append, List.map_append, ih tl,
        Table.lookup_cons_eq_ite]
      split
      next hk =>
        -- Further entries belong to greater keys.
        have habsent : es.lookup k = none := by
          refine Option.eq_none_iff_forall_ne_some.2 fun l hl ↦ ?_
          have hmem := (Table.get?_eq_some_iff (t := ⟨es, tl⟩)).1 hl
          exact Key.ne_of_lt (hd _ hmem) hk.symm
        subst hk
        simp [habsent, List.filter_map, Function.comp_def]
      next hk => simp [Ne.symm hk]
  exact key a.entries a.ascending

/-- Where no list is empty, the pairs are all there is. -/
theorem pairs_inj {a b : Adjacency} (ha : Pruned a) (hb : Pruned b) :
    pairs a = pairs b ↔ a = b := by
  refine ⟨fun h ↦ ext_neighbours ha hb fun k ↦ ?_, congrArg pairs⟩
  rw [← map_snd_filter_pairs, h, map_snd_filter_pairs]

end Adjacency

/-! ### Plans -/

namespace Plan

variable {p q : Plan}

/-- The nodes of a snapshot are the keys of the plan with the names of their operators. -/
theorem Keyed.nodes_snapshot (h : p.Keyed) :
    p.snapshot.nodes = p.keys.map fun k ↦ ⟨k, p.nameOf k⟩ := by
  have hentry : ∀ e ∈ p.ops.entries, (⟨e.2.key, e.2.name⟩ : NodeEntry) = ⟨e.1, p.nameOf e.1⟩ := by
    intro e he
    have hop : p.operator? e.1 = some e.2 := Table.get?_eq_some_iff.2 he
    rw [nameOf, hop, h e.1 e.2 hop]
  simp only [snapshot, operators, Table.values, keys, Table.keys, List.map_map]
  exact List.map_congr_left hentry

theorem Keyed.nodes_eq_iff (h : p.Keyed) (h' : q.Keyed) :
    p.snapshot.nodes = q.snapshot.nodes ↔
      p.keys = q.keys ∧ ∀ k ∈ p.keys, p.nameOf k = q.nameOf k := by
  rw [h.nodes_snapshot, h'.nodes_snapshot]
  constructor
  · intro hnodes
    have hkeys : p.keys = q.keys := by
      simpa only [List.map_map, Function.comp_def, List.map_id'] using
        congrArg (List.map NodeEntry.key) hnodes
    rw [← hkeys, List.map_inj_left] at hnodes
    exact ⟨hkeys, fun k hk ↦ (NodeEntry.mk.inj (hnodes k hk)).2⟩
  · rintro ⟨hkeys, hnames⟩
    rw [← hkeys, List.map_inj_left]
    exact fun k hk ↦ by rw [hnames k hk]

/-- Only operators of the plan have successors. -/
theorem Linked.edges_eq_iff (h : p.Linked) (h' : q.Linked) (hkeys : p.keys = q.keys) :
    p.edges = q.edges ↔ ∀ k ∈ p.keys, p.successors k = q.successors k := by
  rw [edges, edges, Adjacency.pairs_inj h.pruned_succs h'.pruned_succs]
  constructor
  · exact fun hsuccs k _ ↦ congrArg (Adjacency.neighbours · k) hsuccs
  · intro hsuccs
    refine Adjacency.ext_neighbours h.pruned_succs h'.pruned_succs fun k ↦ ?_
    by_cases hk : k ∈ p.keys
    · exact hsuccs k hk
    · have hnil : p.successors k = [] := h.successors_eq_nil fun hc ↦ hk (mem_keys_iff.2 hc)
      have hnil' : q.successors k = [] :=
        h'.successors_eq_nil fun hc ↦ hk (hkeys ▸ mem_keys_iff.2 hc)
      exact hnil.trans hnil'.symm

/-- **What a snapshot shows.** -/
theorem Coherent.snapshot_eq_iff (h : p.Coherent) (h' : q.Coherent) :
    p.snapshot = q.snapshot ↔
      p.keys = q.keys ∧
        ∀ k ∈ p.keys, p.nameOf k = q.nameOf k ∧ p.successors k = q.successors k := by
  have hparts : p.snapshot = q.snapshot ↔
      p.snapshot.nodes = q.snapshot.nodes ∧ p.edges = q.edges :=
    Iff.of_eq (Snapshot.mk.injEq ..)
  rw [hparts, h.keyed.nodes_eq_iff h'.keyed]
  constructor
  · rintro ⟨⟨hkeys, hnames⟩, hedges⟩
    rw [h.linked.edges_eq_iff h'.linked hkeys] at hedges
    exact ⟨hkeys, fun k hk ↦ ⟨hnames k hk, hedges k hk⟩⟩
  · rintro ⟨hkeys, hsame⟩
    rw [h.linked.edges_eq_iff h'.linked hkeys]
    exact ⟨⟨hkeys, fun k hk ↦ (hsame k hk).1⟩, fun k hk ↦ (hsame k hk).2⟩

/-- The bytes that the fingerprint of a plan is the digest of. -/
def fingerprintBytes (p : Plan) : ByteArray :=
  p.snapshot.toJson.compact.toUTF8

theorem fingerprint_eq (p : Plan) : p.fingerprint = Digest.hex p.fingerprintBytes.toList :=
  rfl

/-- **The bytes that are fingerprinted identify the structure.** Plans are written with the same
bytes exactly if they have the same keys, and under each key operators of the same name with the
same successors in the same order; whatever characters there are in names and scopes. -/
theorem fingerprint_bytes_identify (h : p.Coherent) (h' : q.Coherent) :
    p.fingerprintBytes = q.fingerprintBytes ↔
      p.keys = q.keys ∧
        ∀ k ∈ p.keys, p.nameOf k = q.nameOf k ∧ p.successors k = q.successors k :=
  Snapshot.bytes_eq_iff.trans (h.snapshot_eq_iff h')

/-- Two sources whose names and scope look like parts of a snapshot, and a union that they feed in
the given order. -/
def gathered (order : List UInt64) : Plan :=
  let scope := "a\"\x7d,\\\n"
  let source (i : UInt64) (name : String) : Operator := ⟨⟨scope, i⟩, name, .source, false, false⟩
  let all : Operator := ⟨⟨"", 0⟩, "é\x01", .union, true, false⟩
  let bare := (((((∅ : Plan).add (source 0 "\"\x7d,\x7b\"key\":")).plan.add
    (source 1 "\\\"")).plan.add all)).plan
  order.foldl (fun p i ↦ (p.connect ⟨scope, i⟩ all.key).plan) bare

theorem coherent_gathered (order : List UInt64) : (gathered order).Coherent := by
  have hlasting : Lasting (fun _ _ ↦ True) Coherent := lasting_coherent
  have key : ∀ p : Plan, p.Coherent → ∀ (ks : List UInt64) (scope : String) (target : Key),
      (ks.foldl (fun p i ↦ (p.connect ⟨scope, i⟩ target).plan) p).Coherent := by
    intro p hp ks scope target
    induction ks generalizing p with
    | nil => exact hp
    | cons k ks ih => exact ih _ (hlasting.connect hp _ _)
  exact key _ (hlasting.add (hlasting.add (hlasting.add hlasting.empty _) _) _) order _ _

/-- The order in which the union is fed does not show, in the bytes or in the fingerprint; whether
the second source feeds it does. -/
theorem fingerprint_bytes_identify_gathered :
    gathered [0, 1] ≠ gathered [1, 0] ∧
      (gathered [0, 1]).fingerprintBytes = (gathered [1, 0]).fingerprintBytes ∧
      (gathered [0, 1]).fingerprint = (gathered [1, 0]).fingerprint ∧
      (gathered [0, 1]).fingerprintBytes ≠ (gathered [0]).fingerprintBytes := by
  have hbytes : (gathered [0, 1]).fingerprintBytes = (gathered [1, 0]).fingerprintBytes :=
    (fingerprint_bytes_identify (coherent_gathered _) (coherent_gathered _)).2 (by decide +kernel)
  refine ⟨by decide +kernel, hbytes, ?_, fun h ↦ ?_⟩
  · rw [fingerprint_eq, fingerprint_eq, hbytes]
  · exact absurd ((fingerprint_bytes_identify (coherent_gathered _) (coherent_gathered _)).1 h)
      (by decide +kernel)

end Plan

end Dataflow
