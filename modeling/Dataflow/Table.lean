import Dataflow.Key

/-!
# Tables sorted by key

A `Table α` maps finitely many keys to values of type `α`. Its entries stand in strictly ascending
key order, and the order is part of the type, so a table has exactly one form: two tables that
answer every look-up alike are equal (`ext_get?`).

`get?` is the view through which tables are read. `get?_insert`, `get?_erase` and `get?_union` say
what each operation does to it.
-/

namespace Dataflow

/-- A finite map from keys to values, kept in ascending key order. -/
structure Table (α : Type) where
  entries : List (Key × α)
  ascending : entries.Pairwise fun a b ↦ a.1 < b.1
  deriving DecidableEq

namespace Table

variable {α β : Type}

instance : EmptyCollection (Table α) :=
  ⟨⟨[], .nil⟩⟩

instance : Inhabited (Table α) :=
  ⟨∅⟩

/-- The value stored under `k`. -/
def get? (t : Table α) (k : Key) : Option α :=
  t.entries.lookup k

/-- Whether there is an entry for `k`. -/
def contains (t : Table α) (k : Key) : Bool :=
  (t.get? k).isSome

/-- The keys with an entry, ascending. -/
def keys (t : Table α) : List Key :=
  t.entries.map (·.1)

/-- The stored values, in the order of their keys. -/
def values (t : Table α) : List α :=
  t.entries.map (·.2)

/-- The number of entries. -/
def size (t : Table α) : Nat :=
  t.entries.length

/-! ### Insertion -/

/-- Puts an entry where its key belongs, in place of an entry with the same key. -/
def insertEntry (k : Key) (v : α) : List (Key × α) → List (Key × α)
  | [] => [(k, v)]
  | e :: rest =>
    if k < e.1 then (k, v) :: e :: rest
    else if k = e.1 then (k, v) :: rest
    else e :: insertEntry k v rest

theorem fst_mem_insertEntry {k : Key} {v : α} {l : List (Key × α)} {e : Key × α}
    (h : e ∈ insertEntry k v l) : e.1 = k ∨ e ∈ l := by
  induction l with
  | nil => simp_all [insertEntry]
  | cons d rest ih => grind [insertEntry]

theorem ascending_insertEntry {k : Key} {v : α} {l : List (Key × α)}
    (h : l.Pairwise fun a b ↦ a.1 < b.1) :
    (insertEntry k v l).Pairwise fun a b ↦ a.1 < b.1 := by
  induction l with
  | nil => simp [insertEntry]
  | cons e rest ih =>
    obtain ⟨hd, tl⟩ := List.pairwise_cons.1 h
    unfold insertEntry
    split
    next hlt =>
      refine List.pairwise_cons.2 ⟨fun d hmem ↦ ?_, h⟩
      rcases List.mem_cons.1 hmem with rfl | hmem
      · exact hlt
      · exact Key.lt_trans hlt (hd d hmem)
    next hnlt =>
      split
      next heq => exact List.pairwise_cons.2 ⟨fun d hmem ↦ heq ▸ hd d hmem, tl⟩
      next hne =>
        refine List.pairwise_cons.2 ⟨fun d hmem ↦ ?_, ih tl⟩
        rcases fst_mem_insertEntry hmem with hk | hmem
        · rcases Key.lt_trichotomy e.1 k with h' | h' | h'
          · exact hk ▸ h'
          · exact absurd h'.symm hne
          · exact absurd h' hnlt
        · exact hd d hmem

/-- The table with `v` stored under `k`. -/
def insert (t : Table α) (k : Key) (v : α) : Table α :=
  ⟨insertEntry k v t.entries, ascending_insertEntry t.ascending⟩

/-! ### Removal, union, change of values -/

/-- The table without an entry for `k`. -/
def erase (t : Table α) (k : Key) : Table α :=
  ⟨t.entries.filter (·.1 ≠ k), t.ascending.filter _⟩

/-- All entries of both tables; where both have one, that of `u` counts. -/
def union (t u : Table α) : Table α :=
  u.entries.foldl (fun t e ↦ t.insert e.1 e.2) t

/-- Changes the value under `k`, if there is one. -/
def modify (t : Table α) (k : Key) (f : α → α) : Table α :=
  match t.get? k with
  | some v => t.insert k (f v)
  | none => t

/-- Changes every value; the key may be taken into account. -/
def mapWithKey (t : Table α) (f : Key → α → β) : Table β :=
  ⟨t.entries.map fun e ↦ (e.1, f e.1 e.2), t.ascending.map _ fun _ _ h ↦ h⟩

/-- A table from a list of pairs; of several pairs with one key the last counts. -/
def ofList (l : List (Key × α)) : Table α :=
  l.foldl (fun t e ↦ t.insert e.1 e.2) ∅

/-! ### The view -/

/-- Look-up in a list of entries, read off its first entry. -/
theorem lookup_cons_eq_ite (e : Key × α) (l : List (Key × α)) (j : Key) :
    (e :: l).lookup j = if j = e.1 then some e.2 else l.lookup j := by
  obtain ⟨k, v⟩ := e
  rw [List.lookup_cons]
  by_cases h : j = k
  · simp [h]
  · simp only [beq_eq_false_iff_ne.2 h, if_neg h]

theorem lookup_insertEntry (k : Key) (v : α) (l : List (Key × α)) (j : Key) :
    (insertEntry k v l).lookup j = if j = k then some v else l.lookup j := by
  induction l with
  | nil => simp only [insertEntry, lookup_cons_eq_ite]
  | cons e rest ih =>
    unfold insertEntry
    split
    · simp only [lookup_cons_eq_ite]
    · split <;> grind [lookup_cons_eq_ite]

@[simp]
theorem get?_empty (k : Key) : (∅ : Table α).get? k = none :=
  rfl

theorem get?_insert (t : Table α) (k : Key) (v : α) (j : Key) :
    (t.insert k v).get? j = if j = k then some v else t.get? j :=
  lookup_insertEntry k v t.entries j

theorem get?_erase (t : Table α) (k j : Key) :
    (t.erase k).get? j = if j = k then none else t.get? j := by
  have key : ∀ l : List (Key × α),
      (l.filter (·.1 ≠ k)).lookup j = if j = k then none else l.lookup j := by
    intro l
    induction l with
    | nil => simp
    | cons e rest ih => grind [lookup_cons_eq_ite]
  exact key t.entries

theorem nodup_keys (t : Table α) : t.keys.Nodup :=
  List.pairwise_map.2 (t.ascending.imp Key.ne_of_lt)

/-- In a list that has no key twice, look-up finds every entry. -/
theorem lookup_eq_some_iff {l : List (Key × α)} (hl : (l.map (·.1)).Nodup) {k : Key} {v : α} :
    l.lookup k = some v ↔ (k, v) ∈ l := by
  induction l with
  | nil => simp
  | cons e rest ih =>
    obtain ⟨hd, tl⟩ := List.nodup_cons.1 hl
    rw [lookup_cons_eq_ite, List.mem_cons]
    split
    next hk =>
      constructor
      · exact fun hv ↦ .inl (Prod.ext hk (Option.some.inj hv).symm)
      · rintro (rfl | hmem)
        · rfl
        · exact absurd (List.mem_map.2 ⟨_, hmem, hk⟩) hd
    next hk =>
      rw [ih tl]
      exact ⟨.inr, fun hmem ↦ hmem.resolve_left fun he ↦ hk (he ▸ rfl)⟩

theorem get?_eq_some_iff {t : Table α} {k : Key} {v : α} :
    t.get? k = some v ↔ (k, v) ∈ t.entries :=
  lookup_eq_some_iff t.nodup_keys

/-- **One form per table.** Tables that answer every look-up alike are equal. -/
theorem ext_get? {t u : Table α} (h : ∀ k, t.get? k = u.get? k) : t = u := by
  have mem : ∀ e, e ∈ t.entries ↔ e ∈ u.entries := fun e ↦ by
    rw [← get?_eq_some_iff (k := e.1) (v := e.2), h, get?_eq_some_iff]
  have key : ∀ l m : List (Key × α), (l.Pairwise fun a b ↦ a.1 < b.1) →
      (m.Pairwise fun a b ↦ a.1 < b.1) → (∀ e, e ∈ l ↔ e ∈ m) → l = m := by
    intro l
    induction l with
    | nil =>
      intro m _ _ hm
      cases m with
      | nil => rfl
      | cons e _ => exact absurd ((hm e).2 (List.mem_cons_self ..)) (by simp)
    | cons d l ih =>
      intro m hl hm he
      cases m with
      | nil => exact absurd ((he d).1 (List.mem_cons_self ..)) (by simp)
      | cons e m =>
        obtain ⟨hd, tl⟩ := List.pairwise_cons.1 hl
        obtain ⟨hd', tl'⟩ := List.pairwise_cons.1 hm
        have hde : d = e := by
          rcases List.mem_cons.1 ((he d).1 (List.mem_cons_self ..)) with h₁ | h₁
          · exact h₁
          · rcases List.mem_cons.1 ((he e).2 (List.mem_cons_self ..)) with h₂ | h₂
            · exact h₂.symm
            · exact absurd (hd e h₂) (Key.lt_asymm (hd' d h₁))
        subst hde
        refine congrArg _ (ih m tl tl' fun x ↦ ?_)
        constructor
        · intro hx
          rcases List.mem_cons.1 ((he x).1 (.tail _ hx)) with rfl | h₁
          · exact absurd (hd x hx) (Key.lt_irrefl _)
          · exact h₁
        · intro hx
          rcases List.mem_cons.1 ((he x).2 (.tail _ hx)) with rfl | h₁
          · exact absurd (hd' x hx) (Key.lt_irrefl _)
          · exact h₁
  cases t
  cases u
  simp only [Table.mk.injEq]
  exact key _ _ ‹_› ‹_› mem

theorem get?_modify (t : Table α) (k : Key) (f : α → α) (j : Key) :
    (t.modify k f).get? j = if j = k then (t.get? k).map f else t.get? j := by
  unfold modify
  split <;> grind [get?_insert]

theorem get?_mapWithKey (t : Table α) (f : Key → α → β) (k : Key) :
    (t.mapWithKey f).get? k = (t.get? k).map (f k) := by
  have key : ∀ l : List (Key × α),
      (l.map fun e ↦ (e.1, f e.1 e.2)).lookup k = (l.lookup k).map (f k) := by
    intro l
    induction l with
    | nil => rfl
    | cons e rest ih => grind [lookup_cons_eq_ite]
  exact key t.entries

/-- A list that has no key twice, put in entry by entry. -/
theorem get?_foldl_insert (t : Table α) {l : List (Key × α)} (hl : (l.map (·.1)).Nodup) (k : Key) :
    (l.foldl (fun t e ↦ t.insert e.1 e.2) t).get? k = (l.lookup k).or (t.get? k) := by
  induction l generalizing t with
  | nil => simp
  | cons e rest ih =>
    obtain ⟨hd, tl⟩ := List.nodup_cons.1 hl
    rw [List.foldl_cons, ih _ tl, get?_insert, lookup_cons_eq_ite]
    split
    next hk =>
      have absent : rest.lookup k = none := by
        refine Option.eq_none_iff_forall_ne_some.2 fun v hv ↦ hd ?_
        exact List.mem_map.2 ⟨_, (lookup_eq_some_iff tl).1 hv, hk⟩
      simp [absent]
    next => rfl

theorem get?_union (t u : Table α) (k : Key) :
    (t.union u).get? k = (u.get? k).or (t.get? k) :=
  get?_foldl_insert t u.nodup_keys k

theorem get?_ofList {l : List (Key × α)} (hl : (l.map (·.1)).Nodup) (k : Key) :
    (ofList l).get? k = l.lookup k := by
  rw [ofList, get?_foldl_insert ∅ hl, get?_empty, Option.or_none]

/-! ### Counting entries -/

/-- How a count of entries changes when the value of one of them is overwritten. -/
theorem countP_insert {t : Table α} {k : Key} {v w : α} (q : Key × α → Bool)
    (h : t.get? k = some w) :
    (t.insert k v).entries.countP q + (if q (k, w) then 1 else 0) =
      t.entries.countP q + if q (k, v) then 1 else 0 := by
  have key : ∀ l : List (Key × α), (l.Pairwise fun a b ↦ a.1 < b.1) → (k, w) ∈ l →
      (insertEntry k v l).countP q + (if q (k, w) then 1 else 0) =
        l.countP q + if q (k, v) then 1 else 0 := by
    intro l asc hmem
    induction l with
    | nil => simp at hmem
    | cons e rest ih =>
      obtain ⟨hd, tl⟩ := List.pairwise_cons.1 asc
      rcases List.mem_cons.1 hmem with rfl | hmem
      · simp only [insertEntry, Key.lt_irrefl, if_false, if_true, List.countP_cons]
        omega
      · have hlt := hd _ hmem
        have := ih tl hmem
        simp only [insertEntry, Key.lt_asymm hlt, (Key.ne_of_lt hlt).symm, if_false,
          List.countP_cons]
        omega
  exact key t.entries t.ascending (get?_eq_some_iff.1 h)

end Table

end Dataflow
