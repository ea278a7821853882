import Dataflow.Proofs.Matching
import Dataflow.Proofs.Renaming

/-!
# Matches are carried along

A plan may stand in another one under different keys. A search for a match compares keys with each
other and asks for the kinds of operators and for their successors, in the order in which these are
listed; it never asks which of two keys is less. So if the operators of a part and their lists of
successors are found again with all keys changed by `f` (`Plan.Embeds`), every step of the search is
found again as well, and so is its result (`Rule.matchAt_relabel`).

The part has to be closed under successors, for these are what a search goes on to, and `f` has to
keep its keys apart. Nothing is said of operators outside, nor of what feeds those of the part.

A replacement is such a change of keys on the whole plan (`Plan.Linked.embeds_substitute`), provided
that the stand-in is of the same kind as the operator whose place it takes. The lists of successors
keep their order while the keys in them may come to stand in another one, and it is the order of the
lists that decides which match is found.
-/

namespace Dataflow

/-- **A part of `p` stands in `q`**, with the key `f k` for `k`. Its operators are of the same kind
there and feed the same operators in the same order, and these belong to the part. -/
structure Plan.Embeds (f : Key → Key) (part : Key → Prop) (p q : Plan) : Prop where
  injective : ∀ {k j}, part k → part j → f k = f j → k = j
  kind_eq : ∀ k, part k → (q.operator? (f k)).map (·.kind) = (p.operator? k).map (·.kind)
  successors_eq : ∀ k, part k → q.successors (f k) = (p.successors k).map f
  closed : ∀ k j, part k → j ∈ p.successors k → part j

theorem Plan.Embeds.mem_map_iff {f : Key → Key} {part : Key → Prop} {p q : Plan}
    (h : p.Embeds f part q) {k : Key} (hk : part k) {l : List Key} (hl : ∀ j ∈ l, part j) :
    f k ∈ l.map f ↔ k ∈ l := by
  rw [List.mem_map]
  constructor
  · rintro ⟨j, hj, hjk⟩
    exact h.injective (hl j hj) hk hjk ▸ hj
  · exact fun hmem ↦ ⟨k, hmem, rfl⟩

/-! ### Bindings -/

namespace Bindings

/-- All operators that are bound belong to the part. -/
def Within (part : Key → Prop) (b : Bindings) : Prop :=
  ∀ k, some k ∈ b → part k

/-- The bindings with every key changed by `f`; empty positions stay empty. -/
def relabel (f : Key → Key) (b : Bindings) : Bindings :=
  b.map (Option.map f)

variable {part : Key → Prop} {b : Bindings} {k : Key}

theorem within_singleton (hk : part k) : Within part [some k] :=
  fun _ hj ↦ Option.some.inj (List.mem_singleton.1 hj) ▸ hk

theorem Within.bind (hb : Within part b) (hk : part k) : Within part (b ++ [some k]) :=
  fun j hj ↦ (List.mem_append.1 hj).elim (hb j) (within_singleton hk j)

theorem Within.skip (hb : Within part b) : Within part (b ++ [none]) :=
  fun j hj ↦ (List.mem_append.1 hj).elim (hb j) fun hj ↦ nomatch List.mem_singleton.1 hj

theorem Within.of_getElem? (hb : Within part b) {i : Nat} (hi : b[i]?.join = some k) : part k :=
  hb k (List.mem_of_getElem? (Option.join_eq_some_iff.1 hi))

theorem relabel_id : relabel id = id :=
  funext fun b ↦ (congrArg (b.map ·) Option.map_id).trans b.map_id

variable (f : Key → Key)

theorem length_relabel (b : Bindings) : (b.relabel f).length = b.length :=
  List.length_map _

theorem getElem?_relabel (b : Bindings) (i : Nat) :
    (b.relabel f)[i]?.join = b[i]?.join.map f := by
  rw [relabel, List.getElem?_map]
  rcases b[i]? with - | - | k <;> rfl

theorem relabel_concat (b : Bindings) (x : Option Key) :
    (b ++ [x]).relabel f = b.relabel f ++ [x.map f] :=
  List.map_append ..

end Bindings

/-- The match with every key changed by `f`. -/
def Match.relabel (f : Key → Key) (m : Match) : Match :=
  ⟨f m.anchor, m.bindings.relabel f⟩

theorem Match.relabel_id : relabel id = id := by
  funext m
  rw [relabel, Bindings.relabel_id]
  rfl

theorem findSome?_congr {α β : Type} {l : List α} {f g : α → Option β} (h : ∀ x ∈ l, f x = g x) :
    l.findSome? f = l.findSome? g := by
  rw [← List.head?_filterMap, ← List.head?_filterMap, List.filterMap_congr h]

namespace Rule

variable {r : Rule} {p q : Plan} {f : Key → Key} {part : Key → Prop} {b : Bindings} {k : Key}

/-! ### Questions that a search asks -/

/-- What is bound nearest is among the operators that are bound. -/
theorem NearestBound.mem {i : Nat} (h : r.NearestBound b i k) : some k ∈ b := by
  induction h with
  | here h => exact List.mem_of_getElem? (Option.join_eq_some_iff.1 h)
  | above _ _ _ ih => exact ih

/-- Where nothing is bound, it is looked for at the parent. -/
theorem resolve_of_parent {i j : Nat} (hi : b[i]?.join = none) (hij : r.parent i = some j) :
    r.resolve b i = r.resolve b j := by
  rw [resolve, hi]
  dsimp only
  split
  next j' hj' => rw [Option.some.inj (hij.symm.trans hj')]
  next hnone => exact nomatch hij.symm.trans hnone

theorem resolve_of_root {i : Nat} (hi : b[i]?.join = none) (hroot : r.parent i = none) :
    r.resolve b i = none := by
  rw [resolve, hi]
  dsimp only
  split
  next j hj => exact nomatch hroot.symm.trans hj
  next => rfl

/-- Which ancestor is asked depends on the positions that are empty, and not on keys. -/
theorem resolve_relabel (f : Key → Key) (b : Bindings) (i : Nat) :
    r.resolve (b.relabel f) i = (r.resolve b i).map f := by
  have hget := Bindings.getElem?_relabel f b
  fun_induction resolve r b i with
  | case1 i k hk =>
    have hk' : (b.relabel f)[i]?.join = some (f k) := by rw [hget, hk]; rfl
    rw [resolve, hk']
    rfl
  | case2 i hi j hij ih =>
    have hi' : (b.relabel f)[i]?.join = none := by rw [hget, hi]; rfl
    rw [resolve_of_parent hi' hij, ih]
  | case3 i hi hroot =>
    have hi' : (b.relabel f)[i]?.join = none := by rw [hget, hi]; rfl
    rw [resolve_of_root hi' hroot]
    rfl

section Embedding

variable (h : p.Embeds f part q) (hb : b.Within part)

include h hb

theorem mem_relabel_iff (hk : part k) : some (f k) ∈ b.relabel f ↔ some k ∈ b := by
  rw [Bindings.relabel, List.mem_map]
  constructor
  · rintro ⟨x, hx, hxk⟩
    obtain ⟨j, rfl, hjk⟩ := Option.map_eq_some_iff.1 hxk
    exact h.injective (hb j hx) hk hjk ▸ hx
  · exact fun hmem ↦ ⟨some k, hmem, rfl⟩

/-- Of an operator that may be bound only the kind is looked at, and whether it has been bound. -/
theorem mayBind_relabel (hk : part k) (j : Nat) :
    r.mayBind q (b.relabel f) j (f k) = r.mayBind p b j k := by
  have hkind := h.kind_eq k hk
  have hbound : (b.relabel f).contains (some (f k)) = b.contains (some k) := by
    rw [Bool.eq_iff_iff, List.contains_iff_mem, List.contains_iff_mem, mem_relabel_iff h hb hk]
  rw [mayBind, mayBind, hbound]
  rcases hp : p.operator? k with - | op <;> rcases hq : q.operator? (f k) with - | op' <;>
    rcases r.nodes[j]? with - | pattern <;> simp_all

theorem candidates_relabel : r.candidates q (b.relabel f) = (r.candidates p b).map f := by
  have hsource : (r.parent b.length).bind (r.resolve (b.relabel f)) =
      ((r.parent b.length).bind (r.resolve b)).map f := by
    rcases r.parent b.length with - | i
    · rfl
    · exact resolve_relabel f b i
  rw [candidates, candidates, Bindings.length_relabel, hsource]
  rcases hres : (r.parent b.length).bind (r.resolve b) with - | source
  · rfl
  · obtain ⟨i, -, hi⟩ := Option.bind_eq_some_iff.1 hres
    have hpart : part source := hb source (resolve_eq_some_iff.1 hi).mem
    show (q.successors (f source)).filter _ = ((p.successors source).filter _).map f
    rw [h.successors_eq source hpart, List.filter_map]
    refine congrArg (List.map f) (List.filter_congr fun k hk ↦ ?_)
    exact mayBind_relabel h hb (h.closed source k hpart hk) b.length

/-- Nothing outside the part is ever a candidate. -/
theorem part_of_mem_candidates (hk : k ∈ r.candidates p b) : part k := by
  obtain ⟨i, source, -, hsource, hk, -⟩ := mem_candidates_iff.1 hk
  exact h.closed source k (hb source hsource.mem) hk

theorem edgeHolds_relabel (e : Nat × Nat) : r.edgeHolds q (b.relabel f) e = r.edgeHolds p b e := by
  rw [edgeHolds, edgeHolds, Bindings.getElem?_relabel, resolve_relabel]
  rcases htarget : b[e.2]?.join with - | target
  · rfl
  rcases hsource : r.resolve b e.1 with - | source
  · rfl
  have hpart : part source := hb source (resolve_eq_some_iff.1 hsource).mem
  have hpart' : part target := hb.of_getElem? htarget
  show q.hasEdge (f source) (f target) = p.hasEdge source target
  rw [Bool.eq_iff_iff, Plan.hasEdge_iff, Plan.hasEdge_iff, h.successors_eq source hpart]
  exact h.mem_map_iff hpart' fun j hj ↦ h.closed source j hpart hj

theorem secondaryEdgesHold_relabel :
    r.secondaryEdgesHold q (b.relabel f) = r.secondaryEdgesHold p b := by
  have hedges : r.edgeHolds q (b.relabel f) = r.edgeHolds p b := funext (edgeHolds_relabel h hb)
  rw [secondaryEdgesHold, secondaryEdgesHold, hedges]

/-! ### The search -/

/-- At the next position there are the same choices, and the first that leads to a match is the same
if the search goes on from each of them in the same way. -/
theorem findSome?_candidates_relabel
    (hext : ∀ k, part k → r.extend q ((b ++ [some k]).relabel f) =
      (r.extend p (b ++ [some k])).map (Bindings.relabel f)) :
    ((r.candidates q (b.relabel f)).findSome? fun k ↦ r.extend q (b.relabel f ++ [some k])) =
      ((r.candidates p b).findSome? fun k ↦ r.extend p (b ++ [some k])).map
        (Bindings.relabel f) := by
  rw [candidates_relabel h hb, List.findSome?_map, List.map_findSome?]
  refine findSome?_congr fun k hk ↦ ?_
  rw [Function.comp_apply, Function.comp_apply, ← hext k (part_of_mem_candidates h hb hk),
    Bindings.relabel_concat]
  rfl

/-- **On every branch the search does the same.** By induction along the search in `p`. -/
theorem extend_relabel : r.extend q (b.relabel f) = (r.extend p b).map (Bindings.relabel f) := by
  have hlength := Bindings.length_relabel f b
  fun_induction extend r p b with
  | case1 b hlt found hfound ih =>
    have hcarried := findSome?_candidates_relabel h hb fun k hk ↦
      ih k (hb.bind hk) (Bindings.length_relabel f _)
    rw [hfound] at hcarried
    rw [extend, dif_pos (hlength ▸ hlt), hcarried]
    rfl
  | case2 b hlt hnone hreq ih =>
    have hcarried := findSome?_candidates_relabel h hb fun k hk ↦
      ih k (hb.bind hk) (Bindings.length_relabel f _)
    rw [hnone] at hcarried
    have hreq' : r.isRequired (b.relabel f).length := hlength ▸ hreq
    rw [extend, dif_pos (hlength ▸ hlt), hcarried, Option.map_none, if_pos hreq']
  | case3 b hlt hnone hfree ih ih' =>
    have hcarried := findSome?_candidates_relabel h hb fun k hk ↦
      ih k (hb.bind hk) (Bindings.length_relabel f _)
    rw [hnone] at hcarried
    have hfree' : ¬r.isRequired (b.relabel f).length := hlength ▸ hfree
    have hskip := ih' hb.skip (Bindings.length_relabel f _)
    rw [Bindings.relabel_concat] at hskip
    rw [extend, dif_pos (hlength ▸ hlt), hcarried, Option.map_none, if_neg hfree']
    exact hskip
  | case4 b hlt hsec =>
    rw [extend, dif_neg (hlength ▸ hlt), if_pos (secondaryEdgesHold_relabel h hb ▸ hsec)]
    rfl
  | case5 b hlt hsec =>
    rw [extend, dif_neg (hlength ▸ hlt), if_neg (secondaryEdgesHold_relabel h hb ▸ hsec)]
    rfl

end Embedding

/-- **Matches are carried along.** At the key that `f` gives to an anchor of the part, the rule is
found in `q` as it is found at the anchor in `p`, all keys changed by `f`, or in neither. -/
theorem matchAt_relabel (h : p.Embeds f part q) (hk : part k) :
    r.matchAt q (f k) = (r.matchAt p k).map (Match.relabel f) := by
  have hanchor : r.mayBind q [] 0 (f k) = r.mayBind p [] 0 k :=
    mayBind_relabel (b := []) h (fun _ hj ↦ absurd hj List.not_mem_nil) hk 0
  have hext : r.extend q [some (f k)] = (r.extend p [some k]).map (Bindings.relabel f) :=
    extend_relabel h (Bindings.within_singleton hk)
  rw [matchAt, matchAt, hanchor, hext]
  split
  · rw [Option.map_map, Option.map_map]
    rfl
  · rfl

end Rule

/-! ### Replacement -/

/-- **A plan stands in the one that a replacement leaves**, with one key renamed. -/
theorem Plan.Linked.embeds_substitute {p : Plan} {old : Key} {new op : Operator} (h : p.Linked)
    (hop : p.operator? old = some op) (hnew : ¬p.contains new.key) (hkind : new.kind = op.kind) :
    p.Embeds (Adjacency.renameKey old new.key) (fun k ↦ p.contains k) (p.substitute old new) where
  injective := by
    intro k j hk hj hkj
    have hne : ∀ i, p.contains i → i ≠ new.key := fun i hi he ↦ hnew (he ▸ hi)
    unfold Adjacency.renameKey at hkj
    split at hkj <;> split at hkj
    next hk' hj' => rw [hk', hj']
    next => exact absurd hkj.symm (hne j hj)
    next => exact absurd hkj (hne k hk)
    next => exact hkj
  kind_eq k hk := by
    rw [operator?_substitute]
    by_cases hold : k = old
    · rw [Adjacency.renameKey, if_pos hold, if_pos rfl, hold, hop]
      exact congrArg some hkind
    · have hne : k ≠ new.key := fun he ↦ hnew (he ▸ hk)
      rw [Adjacency.renameKey, if_neg hold, if_neg hne, if_neg hold]
  successors_eq k hk := by
    rw [successors_substitute h]
    by_cases hold : k = old
    · rw [Adjacency.renameKey, if_pos hold, if_pos rfl, hold]
      exact (Adjacency.rename_of_not_mem _ (h.not_mem_successors_self old)).symm
    · have hne : k ≠ new.key := fun he ↦ hnew (he ▸ hk)
      rw [Adjacency.renameKey, if_neg hold, if_neg hne, if_neg hold]
      rfl
  closed k j _ hj := (h.contains_of_mem hj).2

namespace Rule

/-- **Matching follows a replacement.** If an operator is replaced by one of its kind, any rule is
found at any operator where it was found before and nowhere else, and bound as it was before, with
the key of the stand-in for the one that is gone. It makes no difference where the new key comes
among the others. -/
theorem matching_follows_replacement (r : Rule) {p : Plan} {old anchor : Key} {new op : Operator}
    (h : p.Linked) (hok : (p.replace old new).answer = .ok op) (hkind : new.kind = op.kind)
    (hanchor : p.contains anchor) :
    r.matchAt (p.replace old new).plan (Adjacency.renameKey old new.key anchor) =
        (r.matchAt p anchor).map (Match.relabel (Adjacency.renameKey old new.key)) ∧
      (r.matchAt (p.replace old new).plan (Adjacency.renameKey old new.key anchor) = none ↔
        r.matchAt p anchor = none) := by
  obtain ⟨hop, hnew⟩ := Plan.checkReplace_eq_ok_iff.1 (Plan.replace_answer_eq_ok_iff.1 hok).1
  have hcarried := matchAt_relabel (r := r) (h.embeds_substitute hop hnew hkind) hanchor
  rw [Plan.replace_of_ok hok, hcarried, Option.map_eq_none_iff]
  exact ⟨rfl, Iff.rfl⟩

/-- A union, whatever it feeds, and a split after that if there is one. -/
def reply : Rule where
  name := "reply"
  nodes := [.kind .union, .any, .kind .split]
  edges := [(0, 1), (1, 2)]
  required := [true, true, false]
  wellFormed := wellFormed_of_fault? (show fault? "reply"
    [.kind .union, .any, .kind .split] [(0, 1), (1, 2)] [true, true, false] = none from rfl)

/-- The one who answers comes first among the successors. Its stand-in does so as well, although it
has the greater key. -/
theorem matching_follows_replacement_duet :
    Plan.duet.Linked ∧
      reply.matchAt Plan.duet ⟨"duet", 1⟩ =
        some ⟨⟨"duet", 1⟩, [some ⟨"duet", 1⟩, some ⟨"duet", 2⟩, none]⟩ ∧
      reply.matchAt (Plan.duet.replace ⟨"duet", 2⟩ ⟨⟨"duet", 4⟩, "guest", .union, true, true⟩).plan
          ⟨"duet", 1⟩ =
        some ⟨⟨"duet", 1⟩, [some ⟨"duet", 1⟩, some ⟨"duet", 4⟩, none]⟩ := by
  have h : Plan.duet.Linked := (Plan.checkInvariants_eq_ok_iff.1 (by decide)).1
  have hok : (Plan.duet.replace ⟨"duet", 2⟩ ⟨⟨"duet", 4⟩, "guest", .union, true, true⟩).answer =
      .ok ⟨⟨"duet", 2⟩, "right", .union, true, true⟩ := by decide
  have hbefore : reply.matchAt Plan.duet ⟨"duet", 1⟩ =
      some ⟨⟨"duet", 1⟩, [some ⟨"duet", 1⟩, some ⟨"duet", 2⟩, none]⟩ := by decide +kernel
  obtain ⟨hcarried, -⟩ := matching_follows_replacement reply h hok rfl
    (show Plan.duet.contains ⟨"duet", 1⟩ by decide)
  rw [hbefore] at hcarried
  exact ⟨h, hbefore, hcarried⟩

end Rule

end Dataflow
