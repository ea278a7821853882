import Dataflow.Proofs.Assignments
import Dataflow.Proofs.Validation

/-!
# What the search for a match finds

`Rule.extend` decides the positions of a rule one after the other and goes back where it gets stuck.
`Rule.Completes r p b d` says, without any order in it, that the decisions in `b` can be completed
to `d`. The search returns a completion if there is one (`isSome_extend`), and the one that it
returns precedes all others (`eq_or_precedes_of_extend`), because at each position it takes up the
choices in the order of preference.

That the completions of an anchor are just the matches with this anchor is shown position by
position (`admissible_iff_completes`).
-/

namespace Dataflow

/-- The item at which a search through a list stops comes before every other item at which it could
have stopped. -/
theorem exists_first_of_findSome? {α β : Type} [DecidableEq α] {l : List α} {f : α → Option β}
    {b : β} (h : l.findSome? f = some b) :
    ∃ x ∈ l, f x = some b ∧ ∀ y, (f y).isSome → y = x ∨ l.idxOf x < l.idxOf y := by
  obtain ⟨l₁, x, l₂, rfl, hx, hbefore⟩ := List.findSome?_eq_some_iff.1 h
  have hnot : ∀ y, (f y).isSome → y ∉ l₁ := fun y hy hmem ↦ by
    rw [hbefore y hmem] at hy
    cases hy
  refine ⟨x, List.mem_append_right _ (List.mem_cons_self ..), hx, fun y hy ↦ ?_⟩
  refine or_iff_not_imp_left.2 fun hne ↦ ?_
  rw [List.idxOf_append_of_notMem (hnot x (hx ▸ rfl)), List.idxOf_append_of_notMem (hnot y hy),
    List.idxOf_cons_self, List.idxOf_cons_ne _ (Ne.symm hne)]
  omega

theorem findSome?_filter {α β : Type} {l : List α} {q : α → Bool} {f : α → Option β} :
    (l.filter q).findSome? f = l.findSome? fun x ↦ if q x then f x else none := by
  induction l with
  | nil => rfl
  | cons x l ih => cases hx : q x <;> simp [hx, ih, List.findSome?_cons]

namespace Rule

variable {r : Rule} {p : Plan}

/-! ### Candidates -/

theorem mayBind_iff {b : Bindings} {j : Nat} {k : Key} :
    r.mayBind p b j k ↔ some k ∉ b ∧ ∃ op pattern, p.operator? k = some op ∧
      r.nodes[j]? = some pattern ∧ pattern.admits op.kind := by
  rw [mayBind]
  rw [Bool.and_eq_true, Bool.not_eq_true', List.contains_eq_mem, decide_eq_false_iff_not]
  refine and_congr_right fun _ ↦ ?_
  cases p.operator? k <;> cases r.nodes[j]? <;> simp

theorem mem_candidates_iff {b : Bindings} {k : Key} :
    k ∈ r.candidates p b ↔ ∃ i source, r.parent b.length = some i ∧ r.NearestBound b i source ∧
      k ∈ p.successors source ∧ r.mayBind p b b.length k := by
  rw [candidates]
  simp only [← resolve_eq_some_iff]
  constructor
  · intro h
    split at h
    next source hsource =>
      obtain ⟨i, hi, hres⟩ := Option.bind_eq_some_iff.1 hsource
      obtain ⟨hk, hmay⟩ := List.mem_filter.1 h
      exact ⟨i, source, hi, hres, hk, hmay⟩
    next => cases h
  · rintro ⟨i, source, hi, hres, hk, hmay⟩
    rw [hi, Option.bind_some, hres]
    exact List.mem_filter.2 ⟨hk, hmay⟩

theorem edgeHolds_iff {b : Bindings} {i j : Nat} :
    r.edgeHolds p b (i, j) ↔ ∀ k, b[j]? = some (some k) →
      ∃ source, r.NearestBound b i source ∧ k ∈ p.successors source := by
  have hjoin : ∀ k, b[j]?.join = some k ↔ b[j]? = some (some k) := fun k ↦
    Option.join_eq_some_iff
  rw [edgeHolds]
  simp only [← hjoin, ← resolve_eq_some_iff, ← Plan.hasEdge_iff]
  cases b[j]?.join <;> cases r.resolve b i <;> simp

/-! ### Completions -/

/-- The decisions in `b` can be completed to `d`. -/
inductive Completes (r : Rule) (p : Plan) : Bindings → Bindings → Prop
  | done {b : Bindings} (hb : ¬b.length < r.size) (h : r.secondaryEdgesHold p b) : Completes r p b b
  | bind {b d : Bindings} {k : Key} (hb : b.length < r.size) (hk : k ∈ r.candidates p b)
    (h : Completes r p (b ++ [some k]) d) : Completes r p b d
  | skip {b d : Bindings} (hb : b.length < r.size) (hfree : ¬r.isRequired b.length)
    (h : Completes r p (b ++ [none]) d) : Completes r p b d

theorem Completes.isPrefix {b d : Bindings} (h : r.Completes p b d) : b <+: d := by
  induction h with
  | done => exact List.prefix_rfl
  | bind _ _ _ ih => exact (List.prefix_append ..).trans ih
  | skip _ _ _ ih => exact (List.prefix_append ..).trans ih

/-- **Soundness of the search.** -/
theorem completes_of_extend {b d : Bindings} (h : r.extend p b = some d) : r.Completes p b d := by
  fun_induction extend r p b generalizing d with
  | case1 b hb found hfound ih =>
    obtain ⟨k, hk, hext⟩ := List.exists_of_findSome?_eq_some hfound
    exact .bind hb hk (ih k (hext.trans h))
  | case2 b hb hnone hreq => cases h
  | case3 b hb hnone hfree _ ih => exact .skip hb hfree (ih h)
  | case4 b hb hsec => exact Option.some.inj h ▸ .done hb hsec
  | case5 b hb hsec => cases h

/-- **Completeness of the search.** -/
theorem isSome_extend {b d : Bindings} (h : r.Completes p b d) : (r.extend p b).isSome := by
  induction h with
  | done hb hsec => rw [extend, dif_neg hb, if_pos hsec, Option.isSome_some]
  | bind hb hk _ ih =>
    rw [extend, dif_pos hb]
    split
    · rfl
    next hnone =>
      rw [List.findSome?_eq_none_iff.1 hnone _ hk] at ih
      cases ih
  | skip hb hfree _ ih =>
    rw [extend, dif_pos hb, if_neg hfree]
    split
    · rfl
    · exact ih

theorem take_eq_and_getElem?_eq {b d : Bindings} {x : Option Key} (h : b ++ [x] <+: d) :
    d.take b.length = b ∧ d[b.length]? = some x := by
  obtain ⟨rest, rfl⟩ := h
  simp

/-- What was decided at a position differs, and everything before it agrees. -/
theorem precedes_of_prefers {b d d' : Bindings} {i : Nat} {k : Key} {x y : Option Key}
    (hd : b ++ [x] <+: d) (hd' : b ++ [y] <+: d') (hi : r.parent b.length = some i)
    (hk : r.NearestBound b i k) (hpref : Prefers (p.successors k) x y) : r.Precedes p d d' := by
  obtain ⟨htake, hx⟩ := take_eq_and_getElem?_eq hd
  obtain ⟨htake', hy⟩ := take_eq_and_getElem?_eq hd'
  have hk' : r.NearestBound d i k := (nearestBound_take_iff (parent_lt hi)).1 (htake.symm ▸ hk)
  exact ⟨b.length, i, k, x, y, htake.trans htake'.symm, hx, hy, hi, hk', hpref⟩

/-- The candidate that the search settles for comes before all others that it could have settled
for. -/
theorem exists_first_candidate {b d : Bindings}
    (h : (r.candidates p b).findSome? (fun k ↦ r.extend p (b ++ [some k])) = some d) :
    ∃ i source k, r.parent b.length = some i ∧ r.NearestBound b i source ∧
      r.extend p (b ++ [some k]) = some d ∧ ∀ k' ∈ r.candidates p b,
        (r.extend p (b ++ [some k'])).isSome →
          k' = k ∨ Prefers (p.successors source) (some k) (some k') := by
  rw [candidates] at h
  split at h
  next source hsource =>
    obtain ⟨i, hi, hres⟩ := Option.bind_eq_some_iff.1 hsource
    rw [findSome?_filter] at h
    obtain ⟨k, hk, hext, hfirst⟩ := exists_first_of_findSome? h
    refine ⟨i, source, k, hi, resolve_eq_some_iff.1 hres, ?_, fun k' hk' hsome ↦ hfirst k' ?_⟩
    · split at hext
      · exact hext
      · cases hext
    · obtain ⟨-, -, -, -, -, hmay⟩ := mem_candidates_iff.1 hk'
      rwa [if_pos hmay]
  next => cases h

/-- **The search returns the first completion.** -/
theorem eq_or_precedes_of_extend {b d d' : Bindings} (h : r.extend p b = some d)
    (h' : r.Completes p b d') : d' = d ∨ r.Precedes p d d' := by
  induction h' generalizing d with
  | done hb hsec =>
    rw [extend, dif_neg hb, if_pos hsec] at h
    exact .inl (Option.some.inj h)
  | bind hb hk' h' ih =>
    -- The search could have settled for the candidate of `d'`, so it settled for one not later.
    have hsome := isSome_extend h'
    rw [extend, dif_pos hb] at h
    split at h
    next found hfound =>
      obtain rfl := Option.some.inj h
      obtain ⟨i, source, k, hi, hsource, hext, hfirst⟩ := exists_first_candidate hfound
      rcases hfirst _ hk' hsome with rfl | hpref
      · exact ih hext
      · exact .inr (precedes_of_prefers (completes_of_extend hext).isPrefix h'.isPrefix hi hsource
          hpref)
    next hnone =>
      rw [List.findSome?_eq_none_iff.1 hnone _ hk'] at hsome
      cases hsome
  | skip hb hfree h' ih =>
    -- `d'` leaves the position empty, which the search does only if no candidate will do.
    rw [extend, dif_pos hb, if_neg hfree] at h
    split at h
    next found hfound =>
      obtain rfl := Option.some.inj h
      obtain ⟨i, source, k, hi, hsource, hext, -⟩ := exists_first_candidate hfound
      exact .inr (precedes_of_prefers (y := none) (completes_of_extend hext).isPrefix h'.isPrefix hi
        hsource trivial)
    next => exact ih h

/-! ### Completions of an anchor are matches -/

theorem length_concat_le_iff {b : Bindings} {x : Option Key} {n : Nat} :
    (b ++ [x]).length ≤ n ↔ b.length < n := by
  rw [List.length_append]
  exact Iff.rfl

theorem Completes.length_eq {b d : Bindings} (h : r.Completes p b d) (hb : b.length ≤ r.size) :
    d.length = r.size := by
  induction h with
  | done hb' => omega
  | bind hb' _ _ ih => exact ih (length_concat_le_iff.2 hb')
  | skip hb' _ _ ih => exact ih (length_concat_le_iff.2 hb')

theorem Completes.secondaryEdgesHold {b d : Bindings} (h : r.Completes p b d) :
    r.secondaryEdgesHold p d := by
  induction h with
  | done _ hsec => exact hsec
  | bind _ _ _ ih => exact ih
  | skip _ _ _ ih => exact ih

/-- How a position was decided that was open in `b`. -/
theorem Completes.decided {b d : Bindings} (h : r.Completes p b d) {j : Nat} (hbj : b.length ≤ j)
    (hj : j < r.size) :
    (∃ k ∈ r.candidates p (d.take j), d[j]? = some (some k)) ∨
      ¬r.isRequired j ∧ d[j]? = some none := by
  induction h with
  | done hb => omega
  | bind hb hk h ih =>
    rcases Nat.eq_or_lt_of_le hbj with rfl | hlt
    · obtain ⟨htake, hget⟩ := take_eq_and_getElem?_eq h.isPrefix
      exact .inl ⟨_, by rwa [htake], hget⟩
    · exact ih (length_concat_le_iff.2 hlt)
  | skip hb hfree h ih =>
    rcases Nat.eq_or_lt_of_le hbj with rfl | hlt
    · exact .inr ⟨hfree, (take_eq_and_getElem?_eq h.isPrefix).2⟩
    · exact ih (length_concat_le_iff.2 hlt)

/-- Candidates for a position, where later positions may have been decided as well. -/
theorem mem_candidates_take_iff {d : Bindings} {j : Nat} {k : Key} (hj : j < d.length) :
    k ∈ r.candidates p (d.take j) ↔ ∃ i source, r.parent j = some i ∧
      r.NearestBound d i source ∧ k ∈ p.successors source ∧ r.mayBind p (d.take j) j k := by
  have hlength : (d.take j).length = j := by rw [List.length_take]; omega
  rw [mem_candidates_iff, hlength]
  refine exists_congr fun i ↦ exists_congr fun source ↦ and_congr_right fun hi ↦ ?_
  rw [nearestBound_take_iff (parent_lt hi)]

theorem not_mem_take_iff {d : Bindings} {j : Nat} {k : Key} :
    some k ∉ d.take j ↔ ∀ i < j, d[i]? ≠ some (some k) := by
  constructor
  · intro h i hi hget
    refine h (List.mem_of_getElem? (i := i) ?_)
    rwa [List.getElem?_take_of_lt hi]
  · intro h hmem
    obtain ⟨i, hi⟩ := List.mem_iff_getElem?.1 hmem
    have hlt : i < j := by
      have := (List.getElem?_eq_some_iff.1 hi).1
      rw [List.length_take] at this
      omega
    rw [List.getElem?_take_of_lt hlt] at hi
    exact h i hlt hi

section Anchor

variable {anchor : Key} {d : Bindings} (h : r.Completes p [some anchor] d)

include h

theorem Completes.length_eq_size : d.length = r.size :=
  h.length_eq (List.length_pos_iff.2 r.wellFormed.nodes_ne_nil)

theorem Completes.anchor_bound : d[0]? = some (some anchor) :=
  (take_eq_and_getElem?_eq (b := []) h.isPrefix).2

/-- Whatever is bound after the anchor was a candidate when its turn came. -/
theorem Completes.mem_candidates {j : Nat} {k : Key} (hpos : 0 < j) (hj : d[j]? = some (some k)) :
    k ∈ r.candidates p (d.take j) := by
  have hlt := (List.getElem?_eq_some_iff.1 hj).1
  rcases h.decided hpos (h.length_eq_size ▸ hlt) with ⟨k', hk', hget⟩ | ⟨-, hget⟩
  · obtain rfl : k' = k := Option.some.inj (Option.some.inj (hget.symm.trans hj))
    exact hk'
  · cases hget.symm.trans hj

variable (hanchor : r.mayBind p [] 0 anchor)

include hanchor

/-- An operator that is bound to a position might have been bound there when its turn came. -/
theorem Completes.mayBind {j : Nat} {k : Key} (hj : d[j]? = some (some k)) :
    r.mayBind p (d.take j) j k := by
  rcases Nat.eq_zero_or_pos j with rfl | hpos
  · obtain rfl : anchor = k :=
      Option.some.inj (Option.some.inj (h.anchor_bound.symm.trans hj))
    exact hanchor
  · have hlt := (List.getElem?_eq_some_iff.1 hj).1
    obtain ⟨-, -, -, -, -, hmay⟩ := (mem_candidates_take_iff hlt).1 (h.mem_candidates hpos hj)
    exact hmay

/-- What completes an anchor is a match. -/
theorem Completes.admissible : r.Admissible p anchor d where
  length_eq := h.length_eq_size
  anchor_bound := h.anchor_bound
  required_bound j hj hreq := by
    rcases Nat.eq_zero_or_pos j with rfl | hpos
    · exact ⟨anchor, h.anchor_bound⟩
    · rcases h.decided hpos hj with ⟨k, -, hget⟩ | ⟨hfree, -⟩
      · exact ⟨k, hget⟩
      · exact absurd hreq hfree
  distinct {i j k} hi hj := by
    have hi' := not_mem_take_iff.1 (mayBind_iff.1 (h.mayBind hanchor hi)).1
    have hj' := not_mem_take_iff.1 (mayBind_iff.1 (h.mayBind hanchor hj)).1
    rcases Nat.lt_trichotomy i j with hlt | heq | hlt
    · exact absurd hi (hj' i hlt)
    · exact heq
    · exact absurd hj (hi' j hlt)
  admits hj := (mayBind_iff.1 (h.mayBind hanchor hj)).2
  edge {i j k} hij hj := by
    -- The edge from the parent was followed to bind `j`; the others were looked at in the end.
    by_cases hparent : r.parent j = some i
    · have hpos : 0 < j := Nat.zero_lt_of_lt (parent_lt hparent)
      have hlt := (List.getElem?_eq_some_iff.1 hj).1
      obtain ⟨i', source, hi', hsource, hk, -⟩ :=
        (mem_candidates_take_iff hlt).1 (h.mem_candidates hpos hj)
      obtain rfl := Option.some.inj (hparent.symm.trans hi')
      exact ⟨source, hsource, hk⟩
    · have hmem : (i, j) ∈ r.edges.filter fun e ↦ r.parent e.2 ≠ some e.1 :=
        List.mem_filter.2 ⟨hij, decide_eq_true hparent⟩
      exact edgeHolds_iff.1 (List.all_eq_true.1 h.secondaryEdgesHold _ hmem) k hj

end Anchor

/-- In a match, whatever is bound after the anchor is a candidate. -/
theorem Admissible.mem_candidates {anchor : Key} {d : Bindings} (h : r.Admissible p anchor d)
    {j : Nat} {k : Key} (hpos : 0 < j) (hj : d[j]? = some (some k)) :
    k ∈ r.candidates p (d.take j) := by
  have hlt := (List.getElem?_eq_some_iff.1 hj).1
  obtain ⟨i, hi⟩ := exists_parent hpos (h.length_eq ▸ hlt)
  obtain ⟨source, hsource, hk⟩ := h.edge (mem_edges_of_parent hi) hj
  have hfresh : some k ∉ d.take j :=
    not_mem_take_iff.2 fun i' hi' hget ↦ Nat.ne_of_lt hi' (h.distinct hget hj)
  exact (mem_candidates_take_iff hlt).2
    ⟨i, source, hi, hsource, hk, mayBind_iff.2 ⟨hfresh, h.admits hj⟩⟩

/-- And every match completes what it has decided up to some position, by induction on the number of
positions that are left. -/
theorem Admissible.completes {anchor : Key} {b d : Bindings} (h : r.Admissible p anchor d)
    (hb : b <+: d) (hpos : 0 < b.length) : r.Completes p b d := by
  obtain ⟨n, hn⟩ : ∃ n, r.size = b.length + n :=
    Nat.exists_eq_add_of_le (h.length_eq ▸ hb.length_le)
  induction n generalizing b with
  | zero =>
    obtain rfl := hb.eq_of_length (h.length_eq.trans hn).symm
    refine .done (Nat.not_lt.2 (Nat.le_of_eq hn)) (List.all_eq_true.2 fun e he ↦ edgeHolds_iff.2 ?_)
    exact fun k hk ↦ h.edge (List.mem_of_mem_filter he) hk
  | succ n ih =>
    have hlt : b.length < r.size := by omega
    have htake : d.take b.length = b := (List.prefix_iff_eq_take.1 hb).symm
    obtain ⟨x, hx⟩ : ∃ x, d[b.length]? = some x :=
      ⟨_, List.getElem?_eq_getElem (h.length_eq.symm ▸ hlt)⟩
    have hnext : b ++ [x] <+: d := by
      rw [List.prefix_iff_eq_take]
      simp [List.take_add_one, htake, hx]
    have hrest : r.Completes p (b ++ [x]) d :=
      ih hnext (by simp) (by rw [List.length_append, List.length_singleton]; omega)
    cases x with
    | none =>
      refine .skip hlt (fun hreq ↦ ?_) hrest
      obtain ⟨k, hk⟩ := h.required_bound _ hlt hreq
      cases hx.symm.trans hk
    | some k => exact .bind hlt (htake ▸ h.mem_candidates hpos hx) hrest

/-- **Matches are the completions of an anchor that may stand at position zero.** -/
theorem admissible_iff_completes {anchor : Key} {b : Bindings} :
    r.Admissible p anchor b ↔ r.mayBind p [] 0 anchor ∧ r.Completes p [some anchor] b := by
  constructor
  · intro h
    refine ⟨mayBind_iff.2 ⟨List.not_mem_nil, h.admits h.anchor_bound⟩, h.completes ?_ Nat.one_pos⟩
    obtain ⟨hlt, hget⟩ := List.getElem?_eq_some_iff.1 h.anchor_bound
    cases b with
    | nil => cases hlt
    | cons x b =>
      obtain rfl : x = some anchor := hget
      exact ⟨b, rfl⟩
  · rintro ⟨hanchor, h⟩
    exact h.admissible hanchor

theorem matchAt_eq_some_iff {anchor : Key} {m : Match} :
    r.matchAt p anchor = some m ↔
      r.mayBind p [] 0 anchor ∧ m.anchor = anchor ∧ r.extend p [some anchor] = some m.bindings := by
  rw [matchAt]
  split
  next hanchor =>
    rw [Option.map_eq_some_iff]
    constructor
    · rintro ⟨b, hb, rfl⟩
      exact ⟨hanchor, rfl, hb⟩
    · rintro ⟨-, rfl, hb⟩
      exact ⟨m.bindings, hb, rfl⟩
  next hanchor => exact iff_of_false nofun fun h ↦ hanchor h.1

/-- Where there is a match, one is returned. -/
theorem Admissible.isSome_matchAt {anchor : Key} {b : Bindings} (h : r.Admissible p anchor b) :
    ∃ m, r.matchAt p anchor = some m := by
  obtain ⟨hanchor, hb⟩ := admissible_iff_completes.1 h
  obtain ⟨d, hc⟩ := Option.isSome_iff_exists.1 (isSome_extend hb)
  exact ⟨⟨anchor, d⟩, matchAt_eq_some_iff.2 ⟨hanchor, rfl, hc⟩⟩

/-- Where none is returned, there is none. -/
theorem not_admissible_of_matchAt {anchor : Key} (h : r.matchAt p anchor = none) :
    ¬∃ b, r.Admissible p anchor b := by
  rintro ⟨b, hb⟩
  obtain ⟨m, hm⟩ := hb.isSome_matchAt
  exact nomatch h.symm.trans hm

/-- What is returned is a match. -/
theorem admissible_of_matchAt {anchor : Key} {m : Match} (h : r.matchAt p anchor = some m) :
    m.anchor = anchor ∧ r.Admissible p anchor m.bindings := by
  obtain ⟨hanchor, hm, hext⟩ := matchAt_eq_some_iff.1 h
  exact ⟨hm, admissible_iff_completes.2 ⟨hanchor, completes_of_extend hext⟩⟩

/-- What is returned precedes every other match. -/
theorem precedes_of_matchAt {anchor : Key} {m : Match} {b : Bindings}
    (h : r.matchAt p anchor = some m) (hb : r.Admissible p anchor b) (hne : b ≠ m.bindings) :
    r.Precedes p m.bindings b := by
  obtain ⟨-, -, hext⟩ := matchAt_eq_some_iff.1 h
  exact (eq_or_precedes_of_extend hext (admissible_iff_completes.1 hb).2).resolve_left hne

/-- **Matching finds the first match, and finds none only if there is none.** For every rule, every
plan and every anchor: no match is returned exactly if no assignment is admissible, and a match is
returned exactly if it is admissible and precedes all other admissible assignments. -/
theorem matchAt_eq_first (r : Rule) (p : Plan) (anchor : Key) :
    (r.matchAt p anchor = none ↔ ¬∃ b, r.Admissible p anchor b) ∧
    ∀ m, r.matchAt p anchor = some m ↔ m.anchor = anchor ∧ r.Admissible p anchor m.bindings ∧
      ∀ b, r.Admissible p anchor b → b ≠ m.bindings → r.Precedes p m.bindings b := by
  refine ⟨⟨not_admissible_of_matchAt, fun hnone ↦ ?_⟩, fun m ↦ ⟨fun hm ↦ ?_, ?_⟩⟩
  · refine Option.eq_none_iff_forall_ne_some.2 fun m hm ↦ hnone ?_
    exact ⟨m.bindings, (admissible_of_matchAt hm).2⟩
  · obtain ⟨hanchor, hadm⟩ := admissible_of_matchAt hm
    exact ⟨hanchor, hadm, fun b ↦ precedes_of_matchAt hm⟩
  · rintro ⟨hanchor, hadm, hfirst⟩
    obtain ⟨m', hm'⟩ := hadm.isSome_matchAt
    obtain ⟨hanchor', hadm'⟩ := admissible_of_matchAt hm'
    by_cases heq : m'.bindings = m.bindings
    · obtain rfl : m' = m := by
        cases m
        cases m'
        simp_all
      exact hm'
    · exact absurd (hfirst _ hadm' heq) (precedes_of_matchAt hm' hadm (Ne.symm heq)).asymm

/-- A split that feeds a sink, and a second one if it can. -/
def fanOut : Rule where
  name := "fan-out"
  nodes := [.kind .split, .kind .sink, .kind .sink]
  edges := [(0, 1), (0, 2)]
  required := [true, true, false]
  wellFormed := wellFormed_of_fault? (show fault? "fan-out" [.kind .split, .kind .sink, .kind .sink]
    [(0, 1), (0, 2)] [true, true, false] = none from rfl)

/-- In the fork, the split is found with both sinks, in the order in which it feeds them; the source
is no split, so there is no match at it. -/
theorem matchAt_eq_first_fork :
    let both : Bindings := [some ⟨"flow", 1⟩, some ⟨"flow", 2⟩, some ⟨"flow", 3⟩]
    fanOut.matchAt Plan.fork ⟨"flow", 1⟩ = some ⟨⟨"flow", 1⟩, both⟩ ∧
      fanOut.Admissible Plan.fork ⟨"flow", 1⟩ both ∧
      ¬∃ b, fanOut.Admissible Plan.fork ⟨"flow", 0⟩ b := by
  intro both
  have hsplit : fanOut.matchAt Plan.fork ⟨"flow", 1⟩ = some ⟨⟨"flow", 1⟩, both⟩ := by
    decide +kernel
  have hsource : fanOut.matchAt Plan.fork ⟨"flow", 0⟩ = none := by decide +kernel
  refine ⟨hsplit, ?_, (matchAt_eq_first fanOut Plan.fork ⟨"flow", 0⟩).1.1 hsource⟩
  exact (((matchAt_eq_first fanOut Plan.fork ⟨"flow", 1⟩).2 _).1 hsplit).2.1

end Rule

end Dataflow
