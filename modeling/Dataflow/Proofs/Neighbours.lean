import Dataflow.Adjacency
import Mathlib.Data.List.Nodup

/-!
# What edits do to lists of neighbours

Statements about edits of an adjacency are made through `Adjacency.neighbours`, which does not tell
a missing entry from an empty list. Nothing is lost by that as long as no empty list is kept:
`Adjacency.Pruned` says so, every edit preserves it, and `ext_neighbours` says that pruned
adjacencies with the same neighbours are equal.

The second half is about the three ways in which a single list is edited: removal of a key, renaming
in place, and splicing a list in for a key.
-/

namespace Dataflow

namespace Adjacency

/-! ### Neighbours after an edit -/

theorem neighbours_eq_of_get? {a : Adjacency} {k : Key} {l : List Key} (h : a.get? k = some l) :
    neighbours a k = l := by
  rw [neighbours, h, Option.getD_some]

/-- A list of neighbours is empty or stands in the table. -/
theorem neighbours_eq_nil_or (a : Adjacency) (k : Key) :
    neighbours a k = [] ∨ a.get? k = some (neighbours a k) := by
  rw [neighbours]
  cases a.get? k <;> simp

theorem neighbours_erase (a : Adjacency) (k j : Key) :
    neighbours (Table.erase a k) j = if j = k then [] else neighbours a j := by
  rw [neighbours]
  rw [Table.get?_erase]
  split <;> rfl

/-- An update of several lists changes each of them once. -/
theorem neighbours_updateAll (a : Adjacency) {ks : List Key} (hks : ks.Nodup)
    (f : List Key → List Key) (j : Key) :
    neighbours (updateAll a ks f) j = if j ∈ ks then f (neighbours a j) else neighbours a j := by
  rw [updateAll]
  induction ks generalizing a with
  | nil => rfl
  | cons k ks ih =>
    obtain ⟨hk, hks⟩ := List.nodup_cons.1 hks
    rw [List.foldl_cons, ih _ hks, neighbours_update]
    by_cases hj : j = k
    · subst hj
      simp [hk]
    · simp [hj]

/-- An update that leaves the other lists as they are might as well have been made to all. -/
theorem neighbours_updateAll_of_fixed (a : Adjacency) {ks : List Key} (hks : ks.Nodup)
    {f : List Key → List Key} (hf : ∀ j ∉ ks, f (neighbours a j) = neighbours a j) (j : Key) :
    neighbours (updateAll a ks f) j = f (neighbours a j) := by
  rw [neighbours_updateAll a hks]
  split
  · rfl
  next hj => exact (hf j hj).symm

/-! ### No empty lists -/

/-- No key is kept with an empty list. -/
def Pruned (a : Adjacency) : Prop :=
  ∀ k, a.get? k ≠ some []

namespace Pruned

theorem empty : Pruned ∅ :=
  fun _ h ↦ nomatch h

theorem erase {a : Adjacency} (h : Pruned a) (k : Key) : Pruned (Table.erase a k) := by
  intro j hj
  rw [Table.get?_erase] at hj
  split at hj
  · cases hj
  · exact h j hj

theorem set {a : Adjacency} (h : Pruned a) (k : Key) (l : List Key) : Pruned (set a k l) := by
  rw [Adjacency.set]
  split
  · exact h.erase k
  next hl =>
    intro j hj
    rw [Table.get?_insert] at hj
    split at hj
    · exact hl (by rw [Option.some.inj hj, List.isEmpty_nil])
    · exact h j hj

theorem update {a : Adjacency} (h : Pruned a) (k : Key) (f : List Key → List Key) :
    Pruned (update a k f) :=
  h.set k _

theorem updateAll {a : Adjacency} (h : Pruned a) (ks : List Key) (f : List Key → List Key) :
    Pruned (updateAll a ks f) := by
  rw [Adjacency.updateAll]
  induction ks generalizing a with
  | nil => exact h
  | cons k ks ih => exact ih (h.update k f)

theorem union {a b : Adjacency} (ha : Pruned a) (hb : Pruned b) : Pruned (Table.union a b) := by
  intro k hk
  rw [Table.get?_union, Option.or_eq_some_iff] at hk
  rcases hk with hk | ⟨-, hk⟩
  · exact hb k hk
  · exact ha k hk

/-- In a pruned adjacency exactly the keys with neighbours have an entry. -/
theorem contains_iff {a : Adjacency} (h : Pruned a) (k : Key) :
    a.contains k ↔ neighbours a k ≠ [] := by
  unfold Table.contains neighbours
  rcases hk : a.get? k with - | l
  · simp
  · have hl : l ≠ [] := fun hl ↦ h k (hl ▸ hk)
    simpa using hl

end Pruned

/-- Where no key has neighbours in both, a union puts them together. -/
theorem neighbours_union {a b : Adjacency} (hb : Pruned b)
    (hd : ∀ k, neighbours a k = [] ∨ neighbours b k = []) (k : Key) :
    neighbours (Table.union a b) k = neighbours a k ++ neighbours b k := by
  have hor : neighbours (Table.union a b) k =
      if b.contains k then neighbours b k else neighbours a k := by
    unfold neighbours Table.contains
    rw [Table.get?_union]
    cases b.get? k <;> rfl
  have hc := hb.contains_iff k
  rw [hor]
  rcases hd k with hk | hk <;> grind

/-- What is said of every entry, and of no empty one, can be said of lists of neighbours. -/
theorem forall_entry_iff {a : Adjacency} {Q : Key → List Key → Prop} :
    (∀ k l, a.get? k = some l → l ≠ [] ∧ Q k l) ↔
      Pruned a ∧ ∀ k, neighbours a k ≠ [] → Q k (neighbours a k) := by
  constructor
  · intro h
    refine ⟨fun k hk ↦ (h k [] hk).1 rfl, fun k hk ↦ ?_⟩
    exact (h k _ ((neighbours_eq_nil_or a k).resolve_left hk)).2
  · rintro ⟨hp, h⟩ k l hl
    have hne : l ≠ [] := fun hnil ↦ hp k (hnil ▸ hl)
    have hn := neighbours_eq_of_get? hl
    exact ⟨hne, hn ▸ h k (hn.symm ▸ hne)⟩

/-- In pruned adjacencies the neighbours of a key tell whether it has an entry. -/
theorem get?_eq_of_neighbours_eq {a b : Adjacency} (ha : Pruned a) (hb : Pruned b) {k : Key}
    (hk : neighbours a k = neighbours b k) : a.get? k = b.get? k := by
  have hc := (ha.contains_iff k).trans (hk ▸ (hb.contains_iff k).symm)
  unfold Table.contains at hc
  unfold neighbours at hk
  rcases hx : a.get? k with - | x <;> rcases hy : b.get? k with - | y <;>
    simp_all

/-- **Neighbours are all there is.** Pruned adjacencies that give every key the same neighbours are
equal. -/
theorem ext_neighbours {a b : Adjacency} (ha : Pruned a) (hb : Pruned b)
    (h : ∀ k, neighbours a k = neighbours b k) : a = b :=
  Table.ext_get? fun k ↦ get?_eq_of_neighbours_eq ha hb (h k)

/-- Taking a list out and putting it back changes nothing. -/
theorem set_erase_self {a : Adjacency} (h : Pruned a) (k : Key) :
    set (Table.erase a k) k (neighbours a k) = a := by
  refine ext_neighbours ((h.erase k).set k _) h fun j ↦ ?_
  rw [neighbours_set, neighbours_erase]
  split <;> simp_all

/-! ### Renaming in a list -/

theorem mem_rename {k new x : Key} {l : List Key} :
    x ∈ rename k new l ↔ x ∈ l ∧ x ≠ k ∨ x = new ∧ k ∈ l := by
  rw [rename]
  rw [List.mem_map]
  constructor
  · rintro ⟨y, hy, rfl⟩
    split <;> simp_all
  · rintro (⟨hx, hne⟩ | ⟨rfl, hk⟩)
    · exact ⟨x, hx, if_neg hne⟩
    · exact ⟨k, hk, if_pos rfl⟩

@[simp]
theorem length_rename (k new : Key) (l : List Key) : (rename k new l).length = l.length :=
  List.length_map ..

theorem rename_of_not_mem {k : Key} {l : List Key} (new : Key) (h : k ∉ l) :
    rename k new l = l := by
  have hid : ∀ x ∈ l, (if x = k then new else x) = id x :=
    fun x hx ↦ if_neg (ne_of_mem_of_not_mem hx h)
  rw [rename, List.map_congr_left hid, List.map_id]

/-- Renaming to a key that does not occur can be taken back. -/
theorem rename_rename {k new : Key} {l : List Key} (h : new ∉ l) :
    rename new k (rename k new l) = l := by
  rw [rename, rename, List.map_map]
  refine (List.map_congr_left fun x hx ↦ ?_).trans (List.map_id l)
  have hne : x ≠ new := ne_of_mem_of_not_mem hx h
  by_cases hk : x = k <;> simp [hk, hne]

/-- A list cut at the key that is renamed. -/
theorem rename_append_cons {k : Key} {l₁ l₂ : List Key} (new : Key) (h₁ : k ∉ l₁) (h₂ : k ∉ l₂) :
    rename k new (l₁ ++ k :: l₂) = l₁ ++ new :: l₂ := by
  have happend : rename k new (l₁ ++ k :: l₂) = rename k new l₁ ++ new :: rename k new l₂ := by
    simp [rename]
  rw [happend, rename_of_not_mem new h₁, rename_of_not_mem new h₂]

/-- Renaming to a key that does not occur repeats nothing. -/
theorem nodup_rename {k new : Key} {l : List Key} (h : l.Nodup) (hnew : new ∉ l) :
    (rename k new l).Nodup := by
  refine h.map_on fun x hx y hy hxy ↦ ?_
  split at hxy <;> split at hxy <;> simp_all

/-- And renaming to a key that does occur repeats it. -/
theorem nodup_rename_iff {k new : Key} {l : List Key} (h : l.Nodup) (hk : k ∈ l) (hne : new ≠ k) :
    (rename k new l).Nodup ↔ new ∉ l := by
  refine ⟨fun hn hnew ↦ hne ?_, nodup_rename h⟩
  exact List.inj_on_of_nodup_map hn hnew hk (by rw [if_neg hne, if_pos rfl])

/-- The list of `j` when the edge between `near` and `far` is led over `between`: `near` sees
`between` in place of `far`, and `between` sees `far` at the end. -/
theorem nodup_rerouted {l : List Key} {j near far between : Key} (h : l.Nodup)
    (hne : between ≠ near) (hnear : j = near → between ∉ l) (hbetween : j = between → far ∉ l) :
    ((if j = near then rename far between l else l) ++
      if j = between then [far] else []).Nodup := by
  by_cases hj : j = near
  · rw [if_pos hj, if_neg (hj ▸ hne.symm), List.append_nil]
    exact nodup_rename h (hnear hj)
  · rw [if_neg hj]
    split
    next hj' => exact List.nodup_append_comm.2 (h.cons (hbetween hj'))
    next => rwa [List.append_nil]

/-! ### Splicing into a list -/

theorem replaceFirst_append_cons {k : Key} {l₁ : List Key} (new l₂ : List Key) (h : k ∉ l₁) :
    replaceFirst k new (l₁ ++ k :: l₂) = l₁ ++ new ++ l₂ := by
  induction l₁ with
  | nil => simp [replaceFirst]
  | cons x l₁ ih =>
    obtain ⟨hx, h⟩ := not_or.1 (List.mem_cons.not.1 h)
    simp [replaceFirst, Ne.symm hx, ih h]

theorem replaceFirst_of_not_mem {k : Key} {l : List Key} (new : List Key) (h : k ∉ l) :
    replaceFirst k new l = l := by
  induction l with
  | nil => rfl
  | cons x l ih =>
    obtain ⟨hx, h⟩ := not_or.1 (List.mem_cons.not.1 h)
    rw [replaceFirst, if_neg (Ne.symm hx), ih h]

/-- To put nothing in is to take out. -/
theorem replaceFirst_nil (k : Key) (l : List Key) : replaceFirst k [] l = l.erase k := by
  induction l with
  | nil => rfl
  | cons x l ih =>
    rw [replaceFirst, List.erase_cons, ih]
    simp

/-- To put one key in is to rename. -/
theorem replaceFirst_singleton {k : Key} {l : List Key} (new : Key) (h : l.Nodup) :
    replaceFirst k [new] l = rename k new l := by
  induction l with
  | nil => rfl
  | cons x l ih =>
    obtain ⟨hx, h⟩ := List.nodup_cons.1 h
    rw [replaceFirst]
    split
    next he =>
      have hl := rename_of_not_mem new (he ▸ hx)
      unfold rename at hl ⊢
      rw [List.map_cons, if_pos he, hl, List.singleton_append]
    next he =>
      have hl := ih h
      unfold rename at hl ⊢
      rw [List.map_cons, if_neg he, hl]

/-- A list that repeats nothing, cut at one of its keys. -/
theorem exists_cut {k : Key} {l : List Key} (h : l.Nodup) (hk : k ∈ l) :
    ∃ l₁ l₂, l = l₁ ++ k :: l₂ ∧ k ∉ l₁ ∧ k ∉ l₂ := by
  obtain ⟨l₁, l₂, rfl⟩ := List.append_of_mem hk
  obtain ⟨-, hn, hd⟩ := List.nodup_append.1 h
  exact ⟨l₁, l₂, rfl, fun h₁ ↦ hd k h₁ k (List.mem_cons_self ..) rfl, (List.nodup_cons.1 hn).1⟩

theorem mem_replaceFirst {k x : Key} {l : List Key} (new : List Key) (h : l.Nodup) :
    x ∈ replaceFirst k new l ↔ x ∈ l ∧ x ≠ k ∨ k ∈ l ∧ x ∈ new := by
  by_cases hk : k ∈ l
  · obtain ⟨l₁, l₂, rfl, h₁, h₂⟩ := exists_cut h hk
    rw [replaceFirst_append_cons new l₂ h₁]
    grind
  · rw [replaceFirst_of_not_mem new hk]
    grind

theorem length_replaceFirst {k : Key} {l : List Key} (new : List Key) (h : l.Nodup) (hk : k ∈ l) :
    (replaceFirst k new l).length = l.length - 1 + new.length := by
  obtain ⟨l₁, l₂, rfl, h₁, -⟩ := exists_cut h hk
  rw [replaceFirst_append_cons new l₂ h₁]
  simp only [List.length_append, List.length_cons]
  omega

/-- Splicing at most one key in makes no list longer. -/
theorem length_replaceFirst_le {k : Key} {l new : List Key} (h : l.Nodup)
    (hnew : new.length ≤ 1) : (replaceFirst k new l).length ≤ l.length := by
  by_cases hk : k ∈ l
  · have := List.length_pos_of_mem hk
    rw [length_replaceFirst new h hk]
    omega
  · exact Nat.le_of_eq (congrArg List.length (replaceFirst_of_not_mem new hk))

/-- Splicing a list in repeats nothing exactly when the two lists share nothing that stays. -/
theorem nodup_replaceFirst {k : Key} {l new : List Key} (h : l.Nodup) (hnew : new.Nodup) :
    (replaceFirst k new l).Nodup ↔ (k ∈ l → ∀ x ∈ new, x ∈ l → x = k) := by
  by_cases hk : k ∈ l
  · obtain ⟨l₁, l₂, rfl, h₁, h₂⟩ := exists_cut h hk
    rw [replaceFirst_append_cons new l₂ h₁]
    simp only [List.nodup_append, List.nodup_cons, List.mem_append, List.mem_cons] at h ⊢
    grind
  · rw [replaceFirst_of_not_mem new hk]
    exact iff_of_true h fun hl ↦ absurd hl hk

end Adjacency

end Dataflow
