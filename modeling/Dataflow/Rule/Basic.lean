import Dataflow.Operator

/-!
# Rules

A rule describes a piece of a plan that is worth looking at. It has positions, numbered from zero,
each with a constraint on the kind of the operator there and a flag that says whether an operator
has to be there at all, and edges that say which position has to feed which. Position zero is the
anchor, from which a match is searched.

Rules carry the proof that they are well formed (`Rule.WellFormed`); `Rule.ofParts` is the way to
make one. The first incoming edge of a position, counted by its source, names the position's
parent. As edges lead forward, parents come before their children (`Rule.parent_lt`), and this is
what searches over the positions of a rule recurse on.
-/

namespace Dataflow

/-- A constraint on the kind of an operator. -/
inductive Pattern
  | any
  | kind (k : Kind)
  deriving DecidableEq, Inhabited, Repr

namespace Pattern

/-- Whether an operator of kind `k` satisfies the constraint. -/
def admits : Pattern → Kind → Bool
  | any, _ => true
  | kind k, k' => k == k'

/-- The constraint with this name: a kind, or `any`, in capital or small ASCII letters. -/
def parse? (s : String) : Option Pattern :=
  if s.toLower = "any" then some any else (Kind.parse? s).map kind

end Pattern

/-- What is wrong with the parts of a rule. -/
inductive RuleError
  | empty (rule : String)
  | requiredMismatch (rule : String) (nodes required : Nat)
  | optionalAnchor (rule : String)
  | badEdge (rule : String) (source target : Nat)
  | duplicateEdge (rule : String) (source target : Nat)
  | unreachable (rule : String) (position : Nat)
  deriving DecidableEq, Repr

/-- The wording of an error. -/
def RuleError.message : RuleError → String
  | empty rule => s!"rule '{rule}' has no pattern positions"
  | requiredMismatch rule nodes required =>
    s!"rule '{rule}' has {nodes} positions but {required} required flags"
  | optionalAnchor rule => s!"rule '{rule}': the anchor position 0 must be required"
  | badEdge rule source target =>
    s!"rule '{rule}': edge ({source}, {target}) must point forward to an existing position"
  | duplicateEdge rule source target =>
    s!"rule '{rule}': edge ({source}, {target}) is listed twice"
  | unreachable rule position => s!"rule '{rule}': position {position} has no incoming edge"

namespace Rule

/-- **Well-formed patterns.** There is an anchor, which is required; every position has a flag;
edges lead forward and none is repeated; every position but the anchor is the target of one. -/
structure WellFormed (nodes : List Pattern) (edges : List (Nat × Nat)) (required : List Bool) :
    Prop where
  nodes_ne_nil : nodes ≠ []
  length_required : required.length = nodes.length
  anchor_required : required[0]? = some true
  forward : ∀ e ∈ edges, e.1 < e.2 ∧ e.2 < nodes.length
  nodup : edges.Nodup
  exists_edge : ∀ j, 0 < j → j < nodes.length → ∃ e ∈ edges, e.2 = j

/-- The first edge that leads nowhere or repeats one of those before it. -/
def edgeFault? (name : String) (n : Nat) :
    List (Nat × Nat) → List (Nat × Nat) → Option RuleError
  | _, [] => none
  | earlier, e :: rest =>
    if ¬(e.1 < e.2 ∧ e.2 < n) then some (.badEdge name e.1 e.2)
    else if e ∈ earlier then some (.duplicateEdge name e.1 e.2)
    else edgeFault? name n (e :: earlier) rest

/-- The first position after the anchor at which no edge ends. -/
def unreachable? (n : Nat) (edges : List (Nat × Nat)) : Option Nat :=
  (List.range n).find? fun j ↦ decide (0 < j) && edges.all (·.2 != j)

/-- What speaks against making a rule of these parts. -/
def fault? (name : String) (nodes : List Pattern) (edges : List (Nat × Nat))
    (required : List Bool) : Option RuleError :=
  if nodes = [] then some (.empty name)
  else if required.length ≠ nodes.length then
    some (.requiredMismatch name nodes.length required.length)
  else if required[0]? ≠ some true then some (.optionalAnchor name)
  else
    match edgeFault? name nodes.length [] edges with
    | some e => some e
    | none => (unreachable? nodes.length edges).map (.unreachable name)

theorem edgeFault?_eq_none {name : String} {n : Nat} {earlier edges : List (Nat × Nat)}
    (h : edgeFault? name n earlier edges = none) :
    (∀ e ∈ edges, e.1 < e.2 ∧ e.2 < n) ∧ edges.Nodup ∧ ∀ e ∈ edges, e ∉ earlier := by
  induction edges generalizing earlier with
  | nil => simp
  | cons e rest ih =>
    unfold edgeFault? at h
    split at h
    · cases h
    next hf =>
      split at h
      · cases h
      next he =>
        obtain ⟨h₁, h₂, h₃⟩ := ih h
        refine ⟨?_, ?_, ?_⟩
        · rintro d (_ | ⟨_, hd⟩)
          · exact Decidable.not_not.1 hf
          · exact h₁ d hd
        · exact List.nodup_cons.2 ⟨fun hm ↦ h₃ e hm (List.mem_cons_self ..), h₂⟩
        · rintro d (_ | ⟨_, hd⟩)
          · exact he
          · exact fun hm ↦ h₃ d hd (.tail _ hm)

theorem unreachable?_eq_none {n : Nat} {edges : List (Nat × Nat)}
    (h : unreachable? n edges = none) (j : Nat) (h₀ : 0 < j) (hj : j < n) :
    ∃ e ∈ edges, e.2 = j := by
  have := List.find?_eq_none.1 h j (List.mem_range.2 hj)
  simp only [h₀, decide_true, Bool.true_and, List.all_eq_true, bne_iff_ne, ne_eq] at this
  simpa using this

/-- Parts that nothing speaks against are well formed. -/
theorem wellFormed_of_fault? {name : String} {nodes : List Pattern} {edges : List (Nat × Nat)}
    {required : List Bool} (h : fault? name nodes edges required = none) :
    WellFormed nodes edges required := by
  unfold fault? at h
  split at h
  · cases h
  split at h
  · cases h
  split at h
  · cases h
  split at h
  · cases h
  next h₁ h₂ h₃ _ he =>
    obtain ⟨hf, hn, -⟩ := edgeFault?_eq_none he
    exact ⟨h₁, Decidable.not_not.1 h₂, Decidable.not_not.1 h₃, hf, hn,
      unreachable?_eq_none (Option.map_eq_none_iff.1 h)⟩

end Rule

/-- A named, well-formed pattern. -/
structure Rule where
  name : String
  nodes : List Pattern
  /-- Pairs of positions, the first of which has to feed the second. -/
  edges : List (Nat × Nat)
  /-- For every position, whether an operator has to be there. -/
  required : List Bool
  wellFormed : Rule.WellFormed nodes edges required
  deriving DecidableEq

namespace Rule

/-- The rule made of these parts, or what is wrong with them. -/
def ofParts (name : String) (nodes : List Pattern) (edges : List (Nat × Nat))
    (required : List Bool) : Except RuleError Rule :=
  match h : fault? name nodes edges required with
  | some e => .error e
  | none => .ok ⟨name, nodes, edges, required, wellFormed_of_fault? h⟩

variable (r : Rule)

/-- The number of positions. -/
def size : Nat :=
  r.nodes.length

/-- Whether an operator has to be at position `j`. -/
def isRequired (j : Nat) : Bool :=
  r.required.getD j false

/-- The least position with an edge to `j`; the anchor has none. -/
def parent (j : Nat) : Option Nat :=
  ((r.edges.filter (·.2 = j)).map (·.1)).min?

theorem mem_edges_of_parent {r : Rule} {i j : Nat} (h : r.parent j = some i) :
    (i, j) ∈ r.edges := by
  have := List.min?_mem h
  simp only [List.mem_map, List.mem_filter, decide_eq_true_eq] at this
  obtain ⟨e, ⟨hm, rfl⟩, rfl⟩ := this
  exact hm

/-- **Parents come first.** -/
theorem parent_lt {r : Rule} {i j : Nat} (h : r.parent j = some i) : i < j :=
  (r.wellFormed.forward _ (mem_edges_of_parent h)).1

end Rule

end Dataflow
