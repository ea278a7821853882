import Dataflow.Proofs.Linked
import Dataflow.Rule.Match

/-!
# Assignments of operators to positions

What a match of a rule is, without reference to the search for one. `Rule.Admissible` says which
assignments of operators to the positions of a rule are matches at all, and `Rule.Precedes` says
which of two assignments is to be preferred.

Both look up what is bound nearest above a position, `Rule.NearestBound`. It depends only on what is
assigned to this position and to those before it (`NearestBound.congr`), so a preference between
assignments that agree up to a position does not depend on what comes after it.
-/

namespace Dataflow

namespace Rule

variable {r : Rule} {p : Plan}

/-! ### Parents -/

/-- Every position but the anchor has a parent. -/
theorem exists_parent {j : Nat} (h₀ : 0 < j) (hj : j < r.size) : ∃ i, r.parent j = some i := by
  obtain ⟨e, he, rfl⟩ := r.wellFormed.exists_edge j h₀ hj
  refine Option.ne_none_iff_exists'.1 fun hnone ↦ ?_
  rw [parent, List.min?_eq_none_iff, List.map_eq_nil_iff] at hnone
  have hmem : e ∈ r.edges.filter (·.2 = e.2) := List.mem_filter.2 ⟨he, decide_eq_true rfl⟩
  rw [hnone] at hmem
  cases hmem

/-! ### The nearest operator that is bound -/

/-- `k` is bound to position `i` or, if none is, to its nearest bound ancestor. -/
inductive NearestBound (r : Rule) (b : Bindings) : Nat → Key → Prop
  | here {i : Nat} {k : Key} (h : b[i]?.join = some k) : NearestBound r b i k
  | above {i j : Nat} {k : Key} (hi : b[i]?.join = none) (hij : r.parent i = some j)
    (h : NearestBound r b j k) : NearestBound r b i k

theorem resolve_eq_some_iff {b : Bindings} {i : Nat} {k : Key} :
    r.resolve b i = some k ↔ r.NearestBound b i k := by
  constructor
  · intro h
    fun_induction resolve r b i with
    | case1 i k' hk' => exact .here (h ▸ hk')
    | case2 i hi j hij ih => exact .above hi hij (ih h)
    | case3 i hi hnone => cases h
  · intro h
    induction h with
    | here h => rw [resolve, h]
    | above hi hij _ ih =>
      rw [resolve, hi]
      dsimp only
      split
      next j' hj' => rwa [← Option.some.inj (hij.symm.trans hj')]
      next hnone => rw [hij] at hnone; cases hnone

/-- What is bound nearest is found at the position or before it. -/
theorem NearestBound.congr {b d : Bindings} {i : Nat} {k : Key} (h : r.NearestBound b i k)
    (heq : ∀ j ≤ i, b[j]? = d[j]?) : r.NearestBound d i k := by
  induction h with
  | here h => exact .here (heq _ (Nat.le_refl _) ▸ h)
  | above hi hij _ ih =>
    have hlt := parent_lt hij
    exact .above (heq _ (Nat.le_refl _) ▸ hi) hij (ih fun j' hj' ↦ heq j' (by omega))

theorem NearestBound.unique {b : Bindings} {i : Nat} {k k' : Key} (h : r.NearestBound b i k)
    (h' : r.NearestBound b i k') : k = k' :=
  Option.some.inj ((resolve_eq_some_iff.2 h).symm.trans (resolve_eq_some_iff.2 h'))

/-- So it can be found while later positions are not decided yet. -/
theorem nearestBound_take_iff {b : Bindings} {i j : Nat} {k : Key} (h : i < j) :
    r.NearestBound (b.take j) i k ↔ r.NearestBound b i k := by
  have heq : ∀ l ≤ i, (b.take j)[l]? = b[l]? :=
    fun l hl ↦ List.getElem?_take_of_lt (Nat.lt_of_le_of_lt hl h)
  exact ⟨fun hk ↦ hk.congr heq, fun hk ↦ hk.congr fun l hl ↦ (heq l hl).symm⟩

/-! ### Matches -/

/-- **Matches.** The anchor is bound to position zero and an operator to every position where one is
required; no operator is bound twice; every operator is in the plan and of a kind that its position
admits; and every edge that ends at a bound position is there, from the operator bound nearest to
its source. -/
structure Admissible (r : Rule) (p : Plan) (anchor : Key) (b : Bindings) : Prop where
  length_eq : b.length = r.size
  anchor_bound : b[0]? = some (some anchor)
  required_bound : ∀ j < r.size, r.isRequired j → ∃ k, b[j]? = some (some k)
  distinct : ∀ {i j : Nat} {k : Key}, b[i]? = some (some k) → b[j]? = some (some k) → i = j
  admits : ∀ {j : Nat} {k : Key}, b[j]? = some (some k) → ∃ op pattern, p.operator? k = some op ∧
    r.nodes[j]? = some pattern ∧ pattern.admits op.kind
  edge : ∀ {i j k}, (i, j) ∈ r.edges → b[j]? = some (some k) →
    ∃ source, r.NearestBound b i source ∧ k ∈ p.successors source

/-! ### Preference -/

/-- Which of two things to have at a position is to be preferred: operators by where they come in
`l`, and any operator to none. -/
def Prefers (l : List Key) : Option Key → Option Key → Prop
  | some k, some k' => l.idxOf k < l.idxOf k'
  | some _, none => True
  | none, _ => False

theorem not_prefers_swap {l : List Key} {x y : Option Key} (h : Prefers l x y) :
    ¬Prefers l y x := by
  rcases x with - | k <;> rcases y with - | k'
  · exact absurd h id
  · exact absurd h id
  · exact id
  · exact Nat.lt_asymm h

/-- **Lexicographic preference.** The first position at which two assignments differ decides, by the
successors of the operator bound nearest to its parent. -/
def Precedes (r : Rule) (p : Plan) (b d : Bindings) : Prop :=
  ∃ j i k x y, b.take j = d.take j ∧ b[j]? = some x ∧ d[j]? = some y ∧ r.parent j = some i ∧
    r.NearestBound b i k ∧ Prefers (p.successors k) x y

theorem getElem?_eq_of_take_eq {b d : Bindings} {j : Nat} (h : b.take j = d.take j) {i : Nat}
    (hi : i < j) : b[i]? = d[i]? := by
  rw [← List.getElem?_take_of_lt hi, h, List.getElem?_take_of_lt hi]

/-- Of two assignments at most one is to be preferred. -/
theorem Precedes.asymm {b d : Bindings} (h : r.Precedes p b d) : ¬r.Precedes p d b := by
  rintro ⟨j', i', k', y', x', htake', hy', hx', hi', hk', hpref'⟩
  obtain ⟨j, i, k, x, y, htake, hx, hy, hi, hk, hpref⟩ := h
  -- If one assignment precedes the other at an earlier position, it differs from it there; but both
  -- agree up to the later position.
  rcases Nat.lt_trichotomy j j' with hlt | rfl | hlt
  · have hxy := (hx.symm.trans (getElem?_eq_of_take_eq htake' hlt).symm).trans hy
    obtain rfl := Option.some.inj hxy
    exact not_prefers_swap hpref hpref
  · have hk'' := hk'.congr fun l hl ↦
      getElem?_eq_of_take_eq htake' (Nat.lt_of_le_of_lt hl (parent_lt hi'))
    obtain rfl := Option.some.inj (hi.symm.trans hi')
    obtain rfl := hk.unique hk''
    obtain rfl := Option.some.inj (hx.symm.trans hx')
    obtain rfl := Option.some.inj (hy.symm.trans hy')
    exact not_prefers_swap hpref hpref'
  · have hxy := (hx'.symm.trans (getElem?_eq_of_take_eq htake hlt)).trans hy'
    obtain rfl := Option.some.inj hxy
    exact not_prefers_swap hpref' hpref'

end Rule

end Dataflow
