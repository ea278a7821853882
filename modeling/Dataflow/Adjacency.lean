import Dataflow.Table

/-!
# Lists of neighbours

An `Adjacency` keeps, for the keys that have any, the list of their neighbours in one direction. A
key without neighbours is meant to have no entry, and `set` and `update`, by which all edits go,
keep it so.

`neighbours` is the view: it reads a missing entry as the empty list. `neighbours_update` says that
an update changes one list and leaves the others alone.

`closure` collects everything that can be reached by one or more steps. It takes any adjacency,
whatever its cycles, repetitions or missing entries: every round either shortens the queue or
visits a key whose entry had not been read before.
-/

namespace Dataflow

/-- The neighbours of each key in one direction, in the order in which the edges were added. -/
abbrev Adjacency :=
  Table (List Key)

namespace Adjacency

/-- The neighbours of `k`; none if there is no entry. -/
def neighbours (a : Adjacency) (k : Key) : List Key :=
  (a.get? k).getD []

/-- Gives `k` the neighbours `l`; an empty list is kept as no entry at all. -/
def set (a : Adjacency) (k : Key) (l : List Key) : Adjacency :=
  if l.isEmpty then a.erase k else a.insert k l

/-- Changes the neighbours of `k`. -/
def update (a : Adjacency) (k : Key) (f : List Key → List Key) : Adjacency :=
  a.set k (f (a.neighbours k))

/-- Changes the neighbours of each of `ks` in turn. -/
def updateAll (a : Adjacency) (ks : List Key) (f : List Key → List Key) : Adjacency :=
  ks.foldl (fun a k ↦ a.update k f) a

/-- Every pair of a key and one of its neighbours, grouped by key. -/
def pairs (a : Adjacency) : List (Key × Key) :=
  a.entries.flatMap fun e ↦ e.2.map fun k ↦ (e.1, k)

/-- The number of pairs. -/
def pairCount (a : Adjacency) : Nat :=
  a.values.foldr (fun ks n ↦ ks.length + n) 0

theorem neighbours_set (a : Adjacency) (k : Key) (l : List Key) (j : Key) :
    (a.set k l).neighbours j = if j = k then l else a.neighbours j := by
  unfold set neighbours
  split <;> grind [Table.get?_erase, Table.get?_insert, List.isEmpty_iff]

theorem neighbours_update (a : Adjacency) (k : Key) (f : List Key → List Key) (j : Key) :
    (a.update k f).neighbours j = if j = k then f (a.neighbours k) else a.neighbours j :=
  neighbours_set ..

/-! ### Edits of one list -/

/-- The list with `new` in place of the first occurrence of `k`. -/
def replaceFirst (k : Key) (new : List Key) : List Key → List Key
  | [] => []
  | x :: xs => if x = k then new ++ xs else x :: replaceFirst k new xs

/-- The list with every `k` renamed to `new`, in its place. -/
def rename (k new : Key) (l : List Key) : List Key :=
  l.map fun x ↦ if x = k then new else x

/-! ### Reachability -/

/-- How many entries belong to keys outside `seen`. -/
def unread (a : Adjacency) (seen : List Key) : Nat :=
  (a.entries.filter fun e ↦ decide (e.1 ∉ seen)).length

theorem unread_cons_le (a : Adjacency) (k : Key) (seen : List Key) :
    a.unread (k :: seen) ≤ a.unread seen := by
  unfold unread
  simp only [← List.countP_eq_length_filter]
  exact List.countP_mono_left fun e _ h ↦ by simp_all

/-- Visiting a key that has an entry leaves fewer entries unread. -/
theorem unread_cons_lt {a : Adjacency} {k : Key} {l seen : List Key} (hk : k ∉ seen)
    (h : a.get? k = some l) : a.unread (k :: seen) < a.unread seen := by
  unfold unread
  have key : ∀ es : List (Key × List Key), (k, l) ∈ es →
      (es.filter fun e ↦ decide (e.1 ∉ k :: seen)).length <
        (es.filter fun e ↦ decide (e.1 ∉ seen)).length := by
    intro es hmem
    simp only [← List.countP_eq_length_filter]
    induction es with
    | nil => simp at hmem
    | cons e es ih =>
      have mono : es.countP (fun e ↦ decide (e.1 ∉ k :: seen)) ≤
          es.countP fun e ↦ decide (e.1 ∉ seen) :=
        List.countP_mono_left fun e _ h ↦ by simp_all
      simp only [List.countP_cons]
      rcases List.mem_cons.1 hmem with rfl | hmem
      · simp [hk] at mono ⊢
        omega
      · have := ih hmem
        by_cases h₁ : e.1 ∈ seen <;> by_cases h₂ : e.1 = k <;> grind
  exact key _ (Table.get?_eq_some_iff.1 h)

/-- Visits the keys of `queue` in turn, and what is found at a key once those before it are done.
The result is `seen` with the newly visited keys before it, the latest first. -/
def sweep (a : Adjacency) (queue seen : List Key) : List Key :=
  match queue with
  | [] => seen
  | k :: rest =>
    if _hk : k ∈ seen then sweep a rest seen
    else
      match _h : a.get? k with
      | none => sweep a rest (k :: seen)
      | some next => sweep a (rest ++ next) (k :: seen)
termination_by (a.unread seen, queue.length)
decreasing_by
  · exact Prod.Lex.right _ (Nat.lt_succ_self _)
  · rcases Nat.lt_or_eq_of_le (unread_cons_le a k seen) with h' | h'
    · exact Prod.Lex.left _ _ h'
    · exact h' ▸ Prod.Lex.right _ (Nat.lt_succ_self _)
  · exact Prod.Lex.left _ _ (unread_cons_lt _hk _h)

/-- The keys that can be reached from `start` by one or more steps, each once. -/
def closure (a : Adjacency) (start : Key) : List Key :=
  a.sweep (a.neighbours start) []

end Adjacency

end Dataflow
