import Dataflow.Proofs.Cycles
import Dataflow.Proofs.Preservation

/-!
# Replacement is a renaming

`Plan.substitute` renames an operator in the lists in which it is known to stand: those of its
successors and predecessors, which its own two lists name. `Adjacency.relabel` renames a key
wherever it stands, and knows of no operators. The two agree on plans whose edges are in order,
because of the mirror law: it leaves no other list to look in.

A renaming to a key that is free can be taken back (`Linked.substitute_substitute`), and so a
replacement is undone by replacing back. Nothing has to be said about the second check, because the
plan to which the second replacement leads is the one from the outset.
-/

namespace Dataflow

namespace Adjacency

variable {a : Adjacency} {f : Key → Key} {old new : Key}

/-- The key under which `k` goes when `old` is called `new`. -/
def renameKey (old new k : Key) : Key :=
  if k = old then new else k

/-- The adjacency with every key changed by `f`, the keys of the entries as well as those in the
lists, which keep their places. -/
def relabel (f : Key → Key) (a : Adjacency) : Adjacency :=
  Table.ofList (a.entries.map fun e ↦ (f e.1, e.2.map f))

/-- Entries stay apart if `f` keeps their keys apart. -/
theorem get?_relabel_eq_some_iff (hf : (a.keys.map f).Nodup) {j : Key} {m : List Key} :
    (relabel f a).get? j = some m ↔ ∃ k l, a.get? k = some l ∧ f k = j ∧ l.map f = m := by
  have hkeys : ((a.entries.map fun e ↦ (f e.1, e.2.map f)).map (·.1)).Nodup := by
    rw [Table.keys, List.map_map] at hf
    rwa [List.map_map]
  rw [relabel, Table.get?_ofList hkeys, Table.lookup_eq_some_iff hkeys]
  simp only [List.mem_map, Prod.exists, Prod.mk.injEq, Table.get?_eq_some_iff]

theorem Pruned.relabel (h : Pruned a) (hf : (a.keys.map f).Nodup) : Pruned (relabel f a) := by
  intro j hj
  obtain ⟨k, l, hl, -, hnil⟩ := (get?_relabel_eq_some_iff hf).1 hj
  exact h k (List.map_eq_nil_iff.1 hnil ▸ hl)

/-- A key that is free is none of the keys to which others are renamed. -/
theorem nodup_map_renameKey (hnew : a.get? new = none) :
    (a.keys.map (renameKey old new)).Nodup := by
  refine nodup_rename a.nodup_keys fun hmem ↦ ?_
  obtain ⟨⟨k, l⟩, hl, rfl⟩ := List.mem_map.1 hmem
  exact nomatch hnew.symm.trans (Table.get?_eq_some_iff.2 hl)

/-- The entry for `new` is the one that `old` had, which has none any more. -/
theorem get?_relabel (hnew : a.get? new = none) (j : Key) :
    (relabel (renameKey old new) a).get? j =
      if j = new then (a.get? old).map (rename old new)
      else if j = old then none
      else (a.get? j).map (rename old new) := by
  refine Option.ext fun m ↦ ?_
  rw [get?_relabel_eq_some_iff (nodup_map_renameKey hnew)]
  constructor
  · rintro ⟨k, l, hl, rfl, rfl⟩
    have hk : k ≠ new := by
      rintro rfl
      cases hnew.symm.trans hl
    by_cases hold : k = old
    · rw [renameKey, if_pos hold, if_pos rfl, ← hold, hl]
      rfl
    · rw [renameKey, if_neg hold, if_neg hk, if_neg hold, hl]
      rfl
  · split
    next hj =>
      intro hm
      obtain ⟨l, hl, rfl⟩ := Option.map_eq_some_iff.1 hm
      exact ⟨old, l, hl, (if_pos rfl).trans hj.symm, rfl⟩
    next hj =>
      split
      next => exact nofun
      next hold =>
        intro hm
        obtain ⟨l, hl, rfl⟩ := Option.map_eq_some_iff.1 hm
        exact ⟨j, l, hl, if_neg hold, rfl⟩

theorem neighbours_relabel (hnew : a.get? new = none) (j : Key) :
    neighbours (relabel (renameKey old new) a) j =
      if j = new then rename old new (neighbours a old)
      else if j = old then []
      else rename old new (neighbours a j) := by
  have hgetD (o : Option (List Key)) :
      (o.map (rename old new)).getD [] = rename old new (o.getD []) :=
    Option.getD_map (rename old new) [] o
  unfold neighbours
  rw [get?_relabel hnew, apply_ite (Option.getD · []), apply_ite (Option.getD · []), hgetD, hgetD]
  rfl

end Adjacency

namespace Plan

variable {p q : Plan} {old : Key} {new op : Operator}

/-- The key of the operator that was replaced is free again. -/
theorem not_contains_substitute (hnew : ¬p.contains new.key) (hop : p.operator? old = some op)
    (hkey : op.key = old) : ¬(p.substitute old new).contains op.key := by
  intro hin
  rcases contains_substitute.1 hin with he | ⟨hne, -⟩
  · exact hnew (contains_iff.2 ⟨op, by rw [← he, hkey, hop]⟩)
  · exact hne hkey

section Substitute

variable (h : p.Linked) (hnew : ¬p.contains new.key)

include h hnew

theorem Linked.get?_succs_eq_none : p.succs.get? new.key = none :=
  Adjacency.get?_eq_of_neighbours_eq h.pruned_succs .empty (h.successors_eq_nil hnew)

/-- **The lists that are gone to are those in which there is something to rename.** -/
theorem Linked.succs_substitute (old : Key) :
    (p.substitute old new).succs = p.succs.relabel (Adjacency.renameKey old new.key) := by
  have hfree := h.get?_succs_eq_none hnew
  refine Adjacency.ext_neighbours (h.substitute old hnew).pruned_succs
    (h.pruned_succs.relabel (Adjacency.nodup_map_renameKey hfree)) fun j ↦ ?_
  rw [Adjacency.neighbours_relabel hfree]
  refine (successors_substitute h old new j).trans ?_
  show _ = if j = new.key then Adjacency.rename old new.key (p.successors old) else _
  rw [Adjacency.rename_of_not_mem _ (h.not_mem_successors_self old)]
  rfl

/-- A replacement treats both directions alike, so the same holds of the plan turned round. -/
theorem Linked.preds_substitute (old : Key) :
    (p.substitute old new).preds = p.preds.relabel (Adjacency.renameKey old new.key) :=
  h.reversed.succs_substitute hnew old

theorem Linked.successors_substitute_substitute (hkey : op.key = old) (j : Key) :
    ((p.substitute old new).substitute new.key op).successors j = p.successors j := by
  have hnot : new.key ∉ p.successors j := fun hmem ↦ hnew (h.contains_of_mem hmem).2
  rw [successors_substitute (h.substitute old hnew), successors_substitute h,
    successors_substitute h, hkey]
  split
  next hj => rw [if_pos rfl, hj]
  next hj =>
    split
    next hj' => rw [hj', h.successors_eq_nil hnew]
    next hj' => rw [Adjacency.rename_rename hnot]

/-- **A replacement is taken back by another one.** -/
theorem Linked.substitute_substitute (hop : p.operator? old = some op) (hkey : op.key = old) :
    (p.substitute old new).substitute new.key op = p := by
  have hlinked := (h.substitute old hnew).substitute new.key (not_contains_substitute hnew hop hkey)
  refine h.eq_of_lookups hlinked.pruned_succs hlinked.pruned_preds (fun j ↦ ?_)
    (h.successors_substitute_substitute hnew hkey)
    (h.reversed.successors_substitute_substitute hnew hkey)
  rw [operator?_substitute, operator?_substitute, hkey]
  split
  next hj => rw [hj, hop]
  next hj =>
    split
    next hj' => rw [hj', operator?_eq_none hnew]
    next => rfl

end Substitute

/-! ### The edit -/

/-- **An operator goes by another key.** `q` is `p` with `new` for the operator under `old`, and is
otherwise `p` with every occurrence of the key `old` renamed. -/
structure Renames (p : Plan) (old : Key) (new : Operator) (q : Plan) : Prop where
  /-- The other operators are the ones that were there. -/
  operator?_eq : ∀ j,
    q.operator? j = if j = new.key then some new else if j = old then none else p.operator? j
  succs_eq : q.succs = p.succs.relabel (Adjacency.renameKey old new.key)
  preds_eq : q.preds = p.preds.relabel (Adjacency.renameKey old new.key)

/-- **Replacement is a renaming and is undone by replacing back.** On every plan that passes
`checkInvariants`: if a replacement goes through, it hands back the old operator, and both edge
tables are the ones that were there with one key renamed wherever it occurs. If the old operator is
put back, which has kept its key, then the plan is the one from the outset. -/
theorem replacement_renames (h : p.checkInvariants = .ok ())
    (hok : (p.replace old new).answer = .ok op) :
    p.operator? old = some op ∧ p.Renames old new (p.replace old new).plan ∧
      (op.key = old → (p.replace old new).plan.replace new.key op = ⟨.ok new, p⟩) := by
  obtain ⟨hl, ha⟩ := checkInvariants_eq_ok_iff.1 h
  obtain ⟨hop, hnew, hq⟩ := (replace_answer_eq_ok_iff_substitute hl ha).1 hok
  obtain ⟨hql, hqa⟩ := checkInvariants_eq_ok_iff.1 hq
  rw [replace_of_ok hok]
  refine ⟨hop, ⟨operator?_substitute old new, hl.succs_substitute hnew old,
    hl.preds_substitute hnew old⟩, fun hkey ↦ ?_⟩
  have hback := hl.substitute_substitute hnew hop hkey
  have hself : (p.substitute old new).operator? new.key = some new :=
    (operator?_substitute ..).trans (if_pos rfl)
  have hfree := not_contains_substitute hnew hop hkey
  have hundo : ((p.substitute old new).replace new.key op).answer = .ok new := by
    refine (replace_answer_eq_ok_iff_substitute hql hqa).2 ⟨hself, hfree, ?_⟩
    rwa [hback]
  show (p.substitute old new).replace new.key op = _
  rw [replace_of_ok hundo, hback]

/-- Two operators that feed each other and both feed a third. -/
def duet : Plan :=
  let left : Operator := ⟨⟨"duet", 1⟩, "left", .union, true, true⟩
  let right : Operator := ⟨⟨"duet", 2⟩, "right", .union, true, true⟩
  let hall : Operator := ⟨⟨"duet", 3⟩, "hall", .sink, true, false⟩
  let bare := ((((∅ : Plan).add left).plan.add right).plan.add hall).plan
  let answered := ((bare.connect left.key right.key).plan.connect right.key left.key).plan
  ((answered.connect right.key hall.key).plan.connect left.key hall.key).plan

/-- The stand-in for one of the two is a predecessor and a successor of the other one, as was the
one who left, and as its key is less than the others, its entries come first. -/
theorem replacement_renames_duet :
    duet.checkInvariants = .ok () ∧
      duet.Renames ⟨"duet", 2⟩ ⟨⟨"duet", 0⟩, "guest", .union, true, true⟩
        (duet.replace ⟨"duet", 2⟩ ⟨⟨"duet", 0⟩, "guest", .union, true, true⟩).plan ∧
      (duet.replace ⟨"duet", 2⟩ ⟨⟨"duet", 0⟩, "guest", .union, true, true⟩).plan.succs.entries =
        [(⟨"duet", 0⟩, [⟨"duet", 1⟩, ⟨"duet", 3⟩]), (⟨"duet", 1⟩, [⟨"duet", 0⟩, ⟨"duet", 3⟩])] ∧
      (duet.replace ⟨"duet", 2⟩ ⟨⟨"duet", 0⟩, "guest", .union, true, true⟩).plan.replace ⟨"duet", 0⟩
        ⟨⟨"duet", 2⟩, "right", .union, true, true⟩ =
          ⟨.ok ⟨⟨"duet", 0⟩, "guest", .union, true, true⟩, duet⟩ := by
  have h : duet.checkInvariants = .ok () := by decide
  have hok : (duet.replace ⟨"duet", 2⟩ ⟨⟨"duet", 0⟩, "guest", .union, true, true⟩).answer =
      .ok ⟨⟨"duet", 2⟩, "right", .union, true, true⟩ := by decide
  obtain ⟨-, hrenames, hback⟩ := replacement_renames h hok
  exact ⟨h, hrenames, by decide, hback rfl⟩

end Plan

end Dataflow
