import Dataflow.Proofs.Patterns
import Dataflow.Rule.Builder

/-!
# Chains of positions

A builder of rules takes calls one at a time, and `chain` connects each position that there is by
then to the next one. `chain_eq` says what that comes to: the edges that are missing are appended,
and nothing else changes. An edge is added by `chain` at most once, whatever calls surround it, so if
one is there twice in the end, some explicit call asked for it while it was there
(`exists_call_of_duplicate`); and an edge that leads nowhere was asked for as well
(`edge_mem_of_mem_edges`).

With a chain at the end, every position but the first is fed by the one before it. What is left to go
wrong when the rule is built is then the fault of an explicit call, or of the first position
(`wellFormed_chain_iff`).
-/

namespace Dataflow

/-- A list repeats what one of its parts repeats, and what both have. -/
theorem duplicate_append_iff {α : Type} {x : α} {l m : List α} :
    List.Duplicate x (l ++ m) ↔ List.Duplicate x l ∨ List.Duplicate x m ∨ x ∈ l ∧ x ∈ m := by
  induction l with
  | nil => simp
  | cons y l ih =>
    rw [List.cons_append, List.duplicate_cons_iff, ih, List.duplicate_cons_iff, List.mem_append,
      List.mem_cons]
    tauto

namespace Rule.Builder

/-! ### What is missing -/

/-- The edges from each of `n` positions to the next one, in order. -/
def links (n : Nat) : List (Nat × Nat) :=
  (List.range (n - 1)).map fun i ↦ (i, i + 1)

/-- The edges from a position to the next one that are not there. -/
def missing (b : Builder) : List (Nat × Nat) :=
  (links b.nodes.length).filter fun e ↦ !b.edges.contains e

variable {b : Builder} {e : Nat × Nat} {i j n : Nat}

theorem mem_links_iff : (i, j) ∈ links n ↔ j = i + 1 ∧ j < n := by
  simp only [links, List.mem_map, List.mem_range, Prod.mk.injEq]
  constructor
  · rintro ⟨l, hl, rfl, rfl⟩
    omega
  · rintro ⟨rfl, hj⟩
    exact ⟨i, by omega, rfl, rfl⟩

/-- Links lead forward. -/
theorem forward_of_mem_links (h : (i, j) ∈ links n) : i < j ∧ j < n := by
  rw [mem_links_iff] at h
  omega

/-- A link leads to every position but the first. -/
theorem link_mem_links (h₀ : 0 < j) (hj : j < n) : (j - 1, j) ∈ links n :=
  mem_links_iff.2 ⟨by omega, hj⟩

theorem nodup_links (n : Nat) : (links n).Nodup :=
  List.nodup_range.map fun _ _ h ↦ (Prod.mk.inj h).1

theorem mem_missing_iff : e ∈ b.missing ↔ e ∈ links b.nodes.length ∧ e ∉ b.edges := by
  rw [missing, List.mem_filter, Bool.not_eq_true', ← Bool.not_eq_true, List.contains_iff_mem]

theorem edgeOnce_eq (b : Builder) (i j : Nat) :
    b.edgeOnce i j = if (i, j) ∈ b.edges then b else b.edge i j := by
  rw [edgeOnce]
  simp only [List.any_eq_true, Bool.and_eq_true, beq_iff_eq]
  refine if_congr ⟨?_, fun h ↦ ⟨_, h, rfl, rfl⟩⟩ rfl rfl
  rintro ⟨e, he, rfl, rfl⟩
  exact he

/-- Positions are connected one by one, and an edge that has just been added is not looked at
again. -/
theorem foldl_edgeOnce (b : Builder) (m : Nat) :
    (List.range m).foldl (fun b i ↦ b.edgeOnce i (i + 1)) b =
      { b with edges := b.edges ++
          ((List.range m).map fun i ↦ (i, i + 1)).filter fun e ↦ !b.edges.contains e } := by
  induction m with
  | zero => simp
  | succ m ih =>
    have hnew : (m, m + 1) ∉
        ((List.range m).map fun i ↦ (i, i + 1)).filter fun e ↦ !b.edges.contains e := by simp
    rw [List.range_succ, List.foldl_append, ih, List.foldl_cons, List.foldl_nil, edgeOnce_eq,
      List.map_append, List.filter_append]
    simp only [List.mem_append, hnew, or_false]
    split
    next hmem => simp [hmem]
    next hmem => simp [hmem, edge]

/-- **What `chain` does.** -/
theorem chain_eq (b : Builder) : b.chain = { b with edges := b.edges ++ b.missing } :=
  foldl_edgeOnce b _

theorem nodes_chain (b : Builder) : b.chain.nodes = b.nodes := by
  rw [chain_eq]

theorem required_chain (b : Builder) : b.chain.required = b.required := by
  rw [chain_eq]

theorem mem_edges_chain : e ∈ b.chain.edges ↔ e ∈ b.edges ∨ e ∈ links b.nodes.length := by
  rw [chain_eq, List.mem_append, mem_missing_iff]
  tauto

theorem chain_chain (b : Builder) : b.chain.chain = b.chain := by
  have hnone : b.chain.missing = [] := by
    refine List.eq_nil_iff_forall_not_mem.2 fun e he ↦ ?_
    obtain ⟨hlink, hmem⟩ := mem_missing_iff.1 he
    rw [nodes_chain] at hlink
    exact hmem (mem_edges_chain.2 (.inr hlink))
  rw [chain_eq b.chain, hnone, List.append_nil]

/-- `chain` repeats nothing. -/
theorem duplicate_edges_chain_iff :
    List.Duplicate e b.chain.edges ↔ List.Duplicate e b.edges := by
  have hmissing : ¬List.Duplicate e b.missing :=
    List.nodup_iff_forall_not_duplicate.1 ((nodup_links _).filter _) e
  have hdisjoint : ¬(e ∈ b.edges ∧ e ∈ b.missing) := fun h ↦ (mem_missing_iff.1 h.2).2 h.1
  rw [chain_eq, duplicate_append_iff]
  simp only [hmissing, hdisjoint, or_false]

/-! ### Calls -/

/-- A call of a builder. -/
inductive Call
  | node (p : Pattern)
  | optional (p : Pattern)
  | any
  | edge (source target : Nat)
  | chain
  deriving DecidableEq, Repr

/-- The builder after a call. -/
def call (b : Builder) : Call → Builder
  | .node p => b.node p
  | .optional p => b.optional p
  | .any => b.any
  | .edge source target => b.edge source target
  | .chain => b.chain

/-- The builder of that name after the calls `cs`, one after the other. -/
def calls (name : String) (cs : List Call) : Builder :=
  cs.foldl call (named name)

variable {name : String} {cs : List Call} {c : Call}

theorem calls_concat (name : String) (cs : List Call) (c : Call) :
    calls name (cs ++ [c]) = (calls name cs).call c := by
  rw [calls, List.foldl_append]
  rfl

/-- One call adds a position with its flag, or edges. -/
theorem call_cases (b : Builder) (c : Call) :
    (∃ p flag, b.call c = { b with nodes := b.nodes ++ [p], required := b.required ++ [flag] }) ∨
      (∃ i j, c = .edge i j ∧ b.call c = { b with edges := b.edges ++ [(i, j)] }) ∨
      c = .chain ∧ b.call c = { b with edges := b.edges ++ b.missing } := by
  cases c with
  | node p => exact .inl ⟨p, true, rfl⟩
  | optional p => exact .inl ⟨p, false, rfl⟩
  | any => exact .inl ⟨.any, true, rfl⟩
  | edge i j => exact .inr (.inl ⟨i, j, rfl, rfl⟩)
  | chain => exact .inr (.inr ⟨rfl, b.chain_eq⟩)

/-- Every position has a flag. -/
theorem length_required_calls : (calls name cs).required.length = (calls name cs).nodes.length := by
  induction cs using List.reverseRecOn with
  | nil => rfl
  | append_singleton cs c ih =>
    rw [calls_concat]
    rcases call_cases (calls name cs) c with ⟨p, flag, hc⟩ | ⟨i, j, -, hc⟩ | ⟨-, hc⟩ <;> rw [hc]
    · simp [ih]
    · exact ih
    · exact ih

/-- Edges stay where they are. -/
theorem edges_prefix_call : b.edges <+: (b.call c).edges := by
  rcases call_cases b c with ⟨p, flag, hc⟩ | ⟨i, j, -, hc⟩ | ⟨-, hc⟩
  · rw [hc]
  · exact hc ▸ List.prefix_append ..
  · exact hc ▸ List.prefix_append ..

theorem edges_prefix_calls (before after : List Call) :
    (calls name before).edges <+: (calls name (before ++ after)).edges := by
  induction after using List.reverseRecOn with
  | nil => rw [List.append_nil]
  | append_singleton after c ih =>
    rw [← List.append_assoc, calls_concat]
    exact ih.trans edges_prefix_call

theorem length_nodes_le_call : b.nodes.length ≤ (b.call c).nodes.length := by
  rcases call_cases b c with ⟨p, flag, hc⟩ | ⟨i, j, -, hc⟩ | ⟨-, hc⟩ <;> rw [hc]
  simp

/-- **Where an edge comes from.** It was asked for, or it connects a position to the next one. -/
theorem edge_mem_of_mem_edges (h : (i, j) ∈ (calls name cs).edges) :
    .edge i j ∈ cs ∨ (i, j) ∈ links (calls name cs).nodes.length := by
  induction cs using List.reverseRecOn with
  | nil => cases h
  | append_singleton cs c ih =>
    rw [calls_concat] at h ⊢
    have hle : (calls name cs).nodes.length ≤ ((calls name cs).call c).nodes.length :=
      length_nodes_le_call
    have hold : (i, j) ∈ (calls name cs).edges →
        .edge i j ∈ cs ++ [c] ∨ (i, j) ∈ links ((calls name cs).call c).nodes.length := fun hmem ↦ by
      rcases ih hmem with hcall | hlink
      · exact .inl (List.mem_append_left _ hcall)
      · rw [mem_links_iff] at hlink ⊢
        exact .inr ⟨hlink.1, Nat.lt_of_lt_of_le hlink.2 hle⟩
    rcases call_cases (calls name cs) c with ⟨p, flag, hc⟩ | ⟨i', j', rfl, hc⟩ | ⟨rfl, hc⟩
    · rw [hc] at h
      exact hold h
    · rw [hc] at h
      rcases List.mem_append.1 h with hmem | hmem
      · exact hold hmem
      · obtain ⟨rfl, rfl⟩ := Prod.mk.inj (List.mem_singleton.1 hmem)
        exact .inl (List.mem_append_right _ (List.mem_singleton_self _))
    · rw [hc] at h
      rcases List.mem_append.1 h with hmem | hmem
      · exact hold hmem
      · rw [hc]
        exact .inr (mem_missing_iff.1 hmem).1

/-- **Where a repeated edge comes from.** It was asked for when it was there. -/
theorem exists_call_of_duplicate (h : List.Duplicate (i, j) (calls name cs).edges) :
    ∃ before after, cs = before ++ .edge i j :: after ∧ (i, j) ∈ (calls name before).edges := by
  induction cs using List.reverseRecOn with
  | nil => exact absurd h (List.not_duplicate_nil _)
  | append_singleton cs c ih =>
    rw [calls_concat] at h
    have hold : List.Duplicate (i, j) (calls name cs).edges → ∃ before after,
        cs ++ [c] = before ++ .edge i j :: after ∧ (i, j) ∈ (calls name before).edges := fun hdup ↦ by
      obtain ⟨before, after, rfl, hmem⟩ := ih hdup
      exact ⟨before, after ++ [c], by simp, hmem⟩
    rcases call_cases (calls name cs) c with ⟨p, flag, hc⟩ | ⟨i', j', rfl, hc⟩ | ⟨rfl, -⟩
    · rw [hc] at h
      exact hold h
    · rw [hc] at h
      rcases duplicate_append_iff.1 h with hdup | hdup | ⟨hmem, hnew⟩
      · exact hold hdup
      · exact (List.not_duplicate_singleton _ _ hdup).elim
      · obtain ⟨rfl, rfl⟩ := Prod.mk.inj (List.mem_singleton.1 hnew)
        exact ⟨cs, [], rfl, hmem⟩
    · exact hold (duplicate_edges_chain_iff.1 h)

theorem mem_edges_of_call (h : .edge i j ∈ cs) : (i, j) ∈ (calls name cs).edges := by
  obtain ⟨before, after, rfl⟩ := List.append_of_mem h
  rw [List.append_cons]
  refine (edges_prefix_calls _ after).subset ?_
  rw [calls_concat]
  exact List.mem_append_right _ (List.mem_singleton_self _)

theorem duplicate_of_call {before after : List Call} (h : (i, j) ∈ (calls name before).edges) :
    List.Duplicate (i, j) (calls name (before ++ .edge i j :: after)).edges := by
  rw [List.append_cons]
  refine List.Duplicate.mono_sublist ?_ (edges_prefix_calls _ after).sublist
  rw [calls_concat]
  exact duplicate_append_iff.2 (.inr (.inr ⟨h, List.mem_singleton_self _⟩))

/-! ### Building what was chained -/

/-- **What can be built once it is chained.** The first position has to be required, and no explicit
call may ask for an edge that leads nowhere or is there already. -/
theorem wellFormed_chain_iff :
    WellFormed (calls name cs).chain.nodes (calls name cs).chain.edges
        (calls name cs).chain.required ↔
      (calls name cs).required[0]? = some true ∧
      (∀ i j, .edge i j ∈ cs → i < j ∧ j < (calls name cs).nodes.length) ∧
      ∀ before i j after, cs = before ++ .edge i j :: after →
        (i, j) ∉ (calls name before).edges := by
  rw [wellFormed_iff_forall, nodes_chain, required_chain]
  constructor
  · rintro ⟨-, -, hanchor, hforward, hnodup, -⟩
    refine ⟨hanchor, fun i j hcall ↦ ?_, fun before i j after hcs hmem ↦ ?_⟩
    · exact hforward i j (mem_edges_chain.2 (.inl (mem_edges_of_call hcall)))
    · refine List.nodup_iff_forall_not_duplicate.1 hnodup (i, j) (duplicate_edges_chain_iff.2 ?_)
      exact hcs ▸ duplicate_of_call hmem
  · rintro ⟨hanchor, hforward, hfresh⟩
    have hpos : 0 < (calls name cs).nodes.length := by
      rw [← length_required_calls]
      exact (List.getElem?_eq_some_iff.1 hanchor).1
    refine ⟨hpos, length_required_calls, hanchor, fun i j hmem ↦ ?_, ?_, fun j h₀ hj ↦ ?_⟩
    · rcases mem_edges_chain.1 hmem with hmem | hlink
      · exact (edge_mem_of_mem_edges hmem).elim (hforward i j) forward_of_mem_links
      · exact forward_of_mem_links hlink
    · refine List.nodup_iff_forall_not_duplicate.2 fun ⟨i, j⟩ hdup ↦ ?_
      obtain ⟨before, after, hcs, hmem⟩ :=
        exists_call_of_duplicate (duplicate_edges_chain_iff.1 hdup)
      exact hfresh before i j after hcs hmem
    · exact ⟨j - 1, mem_edges_chain.2 (.inr (link_mem_links h₀ hj))⟩

/-- What a complaint says of the parts of a builder. -/
theorem holds_of_build {e : RuleError} (h : b.build = .error e) :
    e.Holds b.nodes b.edges b.required :=
  holds_of_fault? (ofParts_eq_error_iff.1 h)

/-- **Chaining never breaks a pattern.** Whatever was called before, `chain` appends the edges from a
position to the next one that are missing, in order, and changes nothing else, so a second `chain`
does nothing. If it is called last, the rule is never refused for want of a flag or because a
position cannot be reached. If it is refused for an edge that leads nowhere, an explicit call asked
for this edge; if for one that is repeated, an explicit call asked for it when it was there already.
And it is built exactly if there is no such call and the first position is required. -/
theorem chaining_keeps_patterns (name : String) (cs : List Call) :
    (calls name cs).chain =
      { calls name cs with
        edges := (calls name cs).edges ++ (links (calls name cs).nodes.length).filter
          fun e ↦ !(calls name cs).edges.contains e } ∧
    (calls name cs).chain.chain = (calls name cs).chain ∧
    let b := calls name (cs ++ [.chain]);
      (∀ rule n m, b.build ≠ .error (.requiredMismatch rule n m)) ∧
      (∀ rule j, b.build ≠ .error (.unreachable rule j)) ∧
      (∀ rule i j, b.build = .error (.badEdge rule i j) →
        .edge i j ∈ cs ∧ ¬(i < j ∧ j < b.nodes.length)) ∧
      (∀ rule i j, b.build = .error (.duplicateEdge rule i j) → ∃ before after,
        cs = before ++ .edge i j :: after ∧ (i, j) ∈ (calls name before).edges) ∧
      ((∃ r, b.build = .ok r) ↔ b.required[0]? = some true ∧
        (∀ i j, .edge i j ∈ cs → i < j ∧ j < b.nodes.length) ∧
        ∀ before i j after, cs = before ++ .edge i j :: after →
          (i, j) ∉ (calls name before).edges) := by
  refine ⟨chain_eq _, chain_chain _, ?_⟩
  rw [calls_concat, call]
  dsimp only
  refine ⟨fun rule n m h ↦ ?_, fun rule j h ↦ ?_, fun rule i j h ↦ ?_, fun rule i j h ↦ ?_, ?_⟩
  · obtain ⟨rfl, rfl, hne⟩ := holds_of_build h
    rw [nodes_chain, required_chain] at hne
    exact hne length_required_calls
  · obtain ⟨h₀, hj, hnone⟩ := holds_of_build h
    rw [nodes_chain] at hj
    exact hnone (j - 1, j) (mem_edges_chain.2 (.inr (link_mem_links h₀ hj))) rfl
  · obtain ⟨hmem, hbad⟩ := holds_of_build h
    rw [nodes_chain] at hbad ⊢
    -- So it is no link, and was not added by `chain`.
    have hlink : (i, j) ∉ links (calls name cs).nodes.length := mt forward_of_mem_links hbad
    have hmem := (mem_edges_chain.1 hmem).resolve_right hlink
    exact ⟨(edge_mem_of_mem_edges hmem).resolve_right hlink, hbad⟩
  · exact exists_call_of_duplicate (duplicate_edges_chain_iff.1 (holds_of_build h))
  · rw [nodes_chain, required_chain]
    exact exists_ofParts_iff.trans wellFormed_chain_iff

/-- An edge that is asked for after it was chained, one that leads to a position that is never
added, and one that leads to a position that is added later. -/
theorem chaining_keeps_patterns_late :
    let twice := [Call.any, .any, .chain, .optional .any, .edge 0 1]
    let astray := [Call.any, .edge 0 2, .any]
    let ahead := [Call.edge 0 2, .any, .optional .any, .chain, .any]
    (calls "twice" (twice ++ [.chain])).build = .error (.duplicateEdge "twice" 0 1) ∧
      (∃ before after, twice = before ++ .edge 0 1 :: after ∧
        (0, 1) ∈ (calls "twice" before).edges) ∧
      (calls "astray" (astray ++ [.chain])).build = .error (.badEdge "astray" 0 2) ∧
      .edge 0 2 ∈ astray ∧
      (calls "ahead" (ahead ++ [.chain])).edges = [(0, 2), (0, 1), (1, 2)] ∧
      ∃ r, (calls "ahead" (ahead ++ [.chain])).build = .ok r := by
  intro twice astray ahead
  have htwice : (calls "twice" (twice ++ [.chain])).build = .error (.duplicateEdge "twice" 0 1) :=
    rfl
  have hastray : (calls "astray" (astray ++ [.chain])).build = .error (.badEdge "astray" 0 2) := rfl
  obtain ⟨-, -, -, hdup, -⟩ := (chaining_keeps_patterns "twice" twice).2.2
  obtain ⟨-, -, hbad, -, -⟩ := (chaining_keeps_patterns "astray" astray).2.2
  obtain ⟨-, -, -, -, hbuilt⟩ := (chaining_keeps_patterns "ahead" ahead).2.2
  refine ⟨htwice, hdup _ _ _ htwice, hastray, (hbad _ _ _ hastray).1, rfl, hbuilt.2 ⟨rfl, ?_, ?_⟩⟩
  · intro i j hcall
    obtain ⟨rfl, rfl⟩ : i = 0 ∧ j = 2 := by simpa [ahead] using hcall
    decide
  · -- The only explicit call comes first.
    rintro (- | ⟨c, before⟩) i j after hcs
    · exact List.not_mem_nil
    · obtain ⟨-, hrest⟩ := List.cons.inj hcs
      have hmem : Call.edge i j ∈ [Call.any, .optional .any, .chain, .any] :=
        hrest ▸ List.mem_append_right _ (List.mem_cons_self ..)
      simp at hmem

end Rule.Builder

end Dataflow
